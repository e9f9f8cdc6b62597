import Coffee.Http.UrlBytes
import Mathlib.Data.List.Basic

/-! # HTTP messages

Headers, requests and responses with the operations that build them. A message keeps its headers
in order and a directory from names to positions. `std::list` iterators are positions here, since
headers are added at the end and never removed.
-/

namespace Coffee.Http

open Coffee.Library Coffee.Basis

inductive HttpHeader.Type where
  | Custom
  | CacheControl | Connection | Date | Pragma | Trailer | TransferEncoding | Upgrade | Via
  | Warning
  | Accept | AcceptCharset | AcceptEncoding | AcceptLanguage | Authorization | Expect | From
  | Host | IfMatch | IfModifiedSince | IfNoneMatch | IfRange | IfUnmodifiedSince | MaxForwards
  | ProxyAuthorization | Range | Referer | TE | UserAgent
  | Allow | ContentEncoding | ContentLanguage | ContentLength | ContentLocation | ContentMD5
  | ContentRange | ContentType | Expires | LastModified
  | AcceptRanges | Age | ETAG | Location | ProxyAuthenticate | RetryAfter | Server | Vary
  | WWWAuthenticate
deriving DecidableEq, Repr

namespace HttpHeader.Type

def asString : HttpHeader.Type → Bytes
  | Custom => text "Custom"
  | CacheControl => text "Cache-Control"
  | Connection => text "Connection"
  | Date => text "Date"
  | Pragma => text "Pragma"
  | Trailer => text "Trailer"
  | TransferEncoding => text "Transfer-Encoding"
  | Upgrade => text "Upgrade"
  | Via => text "Via"
  | Warning => text "Warning"
  | Accept => text "Accept"
  | AcceptCharset => text "Accept-Charset"
  | AcceptEncoding => text "Accept-Encoding"
  | AcceptLanguage => text "Accept-Language"
  | Authorization => text "Authorization"
  | Expect => text "Expect"
  | From => text "From"
  | Host => text "Host"
  | IfMatch => text "If-Match"
  | IfModifiedSince => text "If-Modified-Since"
  | IfNoneMatch => text "If-None-Match"
  | IfRange => text "If-Range"
  | IfUnmodifiedSince => text "If-Unmodified-Since"
  | MaxForwards => text "Max-Forwards"
  | ProxyAuthorization => text "Proxy-Authorization"
  | Range => text "Range"
  | Referer => text "Referer"
  | TE => text "TE"
  | UserAgent => text "User-Agent"
  | Allow => text "Allow"
  | ContentEncoding => text "Content-Encoding"
  | ContentLanguage => text "Content-Language"
  | ContentLength => text "Content-Length"
  | ContentLocation => text "Content-Location"
  | ContentMD5 => text "Content-MD5"
  | ContentRange => text "Content-Range"
  | ContentType => text "Content-Type"
  | Expires => text "Expires"
  | LastModified => text "Last-Modified"
  | AcceptRanges => text "Accept-Ranges"
  | Age => text "Age"
  | ETAG => text "ETAG"
  | Location => text "Location"
  | ProxyAuthenticate => text "Proxy-Authenticate"
  | RetryAfter => text "Retry-After"
  | Server => text "Server"
  | Vary => text "Vary"
  | WWWAuthenticate => text "WWW-Authenticate"

/-- The types that `headerNames` lists, in the order of the table. -/
def predefined : List HttpHeader.Type :=
  [CacheControl, Connection, Date, Pragma, Trailer, TransferEncoding, Upgrade, Via, Warning,
    Accept, AcceptCharset, AcceptEncoding, AcceptLanguage, Authorization, Expect, From, Host,
    IfMatch, IfModifiedSince, IfNoneMatch, IfRange, IfUnmodifiedSince, MaxForwards,
    ProxyAuthorization, Range, Referer, TE, UserAgent, Allow, ContentEncoding, ContentLanguage,
    ContentLength, ContentLocation, ContentMD5, ContentRange, ContentType, Expires, LastModified,
    AcceptRanges, Age, ETAG, Location, ProxyAuthenticate, RetryAfter, Server, Vary,
    WWWAuthenticate]

theorem mem_predefined {type : HttpHeader.Type} (h : type ≠ Custom) : type ∈ predefined := by
  cases type
  case Custom => exact absurd rfl h
  all_goals decide

end HttpHeader.Type

namespace HttpHeader

/-- The dynamic class of a header: `HttpHeader`, or `HttpCustomHeader` with a name of its own. -/
inductive Class where
  | predefined (m_type : HttpHeader.Type)
  | custom (m_name : Bytes)
deriving DecidableEq, Repr

/-- The name under which the directory of a message holds a header of the class. -/
def Class.key : Class → Bytes
  | .predefined type => type.asString
  | .custom name => name

end HttpHeader

structure HttpHeader where
  m_class : HttpHeader.Class
  m_value : Bytes
deriving DecidableEq, Repr

namespace HttpHeader

def instantiate (m_class : Class) : HttpHeader := ⟨m_class, []⟩

def noneInstantiated : RuntimeException :=
  ⟨text "HttpHeader of type none can not be instantiated for users"⟩

def getName (header : HttpHeader) : Except RuntimeException Bytes :=
  match header.m_class with
  | .predefined .Custom => .error noneInstantiated
  | .predefined type => .ok type.asString
  | .custom name => .ok name

def setValue (header : HttpHeader) (value : Bytes) : HttpHeader :=
  if header.m_value.isEmpty then { header with m_value := value }
  else { header with m_value := header.m_value ++ text "," ++ value }

def encode (header : HttpHeader) : Except RuntimeException Bytes := do
  return (← header.getName) ++ text ":" ++ header.m_value

@[simp] theorem setValue_class (header : HttpHeader) (value : Bytes) :
    (header.setValue value).m_class = header.m_class := by
  unfold setValue
  split <;> rfl

@[simp] theorem setValue_instantiate (m_class : Class) (value : Bytes) :
    (instantiate m_class).setValue value = ⟨m_class, value⟩ := rfl

theorem getName_eq_key {header : HttpHeader} (h : header.m_class ≠ .predefined .Custom) :
    header.getName = .ok header.m_class.key := by
  unfold getName
  split
  · next hCustom => exact absurd hCustom h
  · next type _ hType => rw [hType]; rfl
  · next name hName => rw [hName]; rfl

end HttpHeader

inductive HttpRequest.Method where
  | Port | Options | Get | Head | Put | Delete | Trace | Connect
deriving DecidableEq, Repr

def HttpRequest.Method.asString : HttpRequest.Method → Bytes
  | .Port => text "PORT"
  | .Options => text "OPTIONS"
  | .Get => text "GET"
  | .Head => text "HEAD"
  | .Put => text "PUT"
  | .Delete => text "DELETE"
  | .Trace => text "TRACE"
  | .Connect => text "CONNECT"

def HttpRequest.Method.all : List HttpRequest.Method :=
  [.Port, .Options, .Get, .Head, .Put, .Delete, .Trace, .Connect]

/-- What `HttpRequest` and `HttpResponse` add to `HttpMessage`. -/
inductive HttpMessage.Derived where
  | request (m_method : HttpRequest.Method) (m_url : URL)
  | response (m_statusCode : Int32) (m_errorDescription : Bytes)
deriving DecidableEq

structure HttpMessage where
  derived : HttpMessage.Derived
  m_majorVersion : UInt16
  m_minorVersion : UInt16
  m_sequentialHeaders : List HttpHeader
  m_directory : List (Bytes × Nat)
  m_body : Bytes
deriving DecidableEq

namespace HttpMessage

def instantiate (derived : Derived) (m_majorVersion m_minorVersion : UInt16) : HttpMessage :=
  { derived, m_majorVersion, m_minorVersion, m_sequentialHeaders := [], m_directory := [],
    m_body := [] }

def hasCustomHeader (message : HttpMessage) (headerName : Bytes) : Bool :=
  (message.m_directory.lookup headerName).isSome

def hasHeader (message : HttpMessage) (type : HttpHeader.Type) : Except RuntimeException Bool :=
  if type = .Custom then .error HttpHeader.noneInstantiated
  else .ok (message.hasCustomHeader type.asString)

def getCustomHeaderValue (message : HttpMessage) (headerName : Bytes) :
    Except RuntimeException Bytes :=
  match (message.m_directory.lookup headerName).bind fun dd => message.m_sequentialHeaders[dd]? with
  | some header => .ok header.m_value
  | none => .error ⟨text "Header " ++ headerName ++ text " was not found"⟩

def getHeaderValue (message : HttpMessage) (type : HttpHeader.Type) :
    Except RuntimeException Bytes :=
  if type = .Custom then .error HttpHeader.noneInstantiated
  else message.getCustomHeaderValue type.asString

/-- The body that `setHeader` and `setCustomHeader` share. -/
def setClass (message : HttpMessage) (m_class : HttpHeader.Class) (value : Bytes) : HttpMessage :=
  match message.m_directory.lookup m_class.key with
  | none =>
    { message with
      m_sequentialHeaders :=
        message.m_sequentialHeaders ++ [(HttpHeader.instantiate m_class).setValue value]
      m_directory := message.m_directory ++ [(m_class.key, message.m_sequentialHeaders.length)] }
  | some dd =>
    { message with
      m_sequentialHeaders := message.m_sequentialHeaders.modify dd (·.setValue value) }

def setHeader (message : HttpMessage) (type : HttpHeader.Type) (value : Bytes) :
    Except RuntimeException HttpMessage :=
  if type = .Custom then .error HttpHeader.noneInstantiated
  else .ok (message.setClass (.predefined type) value)

def setCustomHeader (message : HttpMessage) (headerName value : Bytes) : HttpMessage :=
  message.setClass (.custom headerName) value

def setBody (message : HttpMessage) (body : Bytes) : HttpMessage := { message with m_body := body }

def encodeVersion (message : HttpMessage) : Bytes :=
  text "HTTP/" ++ asString message.m_majorVersion.toNat ++ text "." ++
    asString message.m_minorVersion.toNat

end HttpMessage

def HttpRequest.instantiate (method : HttpRequest.Method) (url : Bytes)
    (majorVersion minorVersion : UInt32) : Except RuntimeException HttpMessage := do
  return .instantiate (.request method (← URLParser.build url)) majorVersion.toUInt16
    minorVersion.toUInt16

def HttpRequest.getPath (m_url : URL) : Except RuntimeException Bytes := m_url.getComponent .Path

namespace HttpResponse

def instantiate (majorVersion minorVersion : UInt16) (statusCode : Int32)
    (errorDescription : Bytes) : HttpMessage :=
  .instantiate (.response statusCode errorDescription) majorVersion minorVersion

/-- The response to a request: its version, status 200 and no description. -/
def instantiateFor (request : HttpMessage) : HttpMessage :=
  .instantiate (.response 200 []) request.m_majorVersion request.m_minorVersion

def reasons : List (Int32 × Bytes) :=
  [(100, text "Continue"), (101, text "Switching Protocols"), (200, text "OK"),
    (201, text "Created"), (202, text "Accepted"), (203, text "Non-Authoritative Information"),
    (204, text "No Content"), (205, text "Reset Content"), (206, text "Partial Content"),
    (300, text "Multiple Choise"), (301, text "Moved Permanently"), (302, text "Found"),
    (303, text "See Other"), (304, text "Not Modified"), (305, text "Use proxy"),
    (307, text "Temporary Redirect"), (400, text "Bad Request"), (401, text "Unautorized"),
    (402, text "Payment Required"), (403, text "Forbidden"), (404, text "Not found"),
    (405, text "Method Not Allowed"), (406, text "Not Acceptable"),
    (407, text "Proxy Authentication Required"), (408, text "Request Time-out"),
    (409, text "Conflict"), (410, text "Gone"), (411, text "Length Required"),
    (412, text "Precondition Failed"), (413, text "Request Entity Too Large"),
    (414, text "Request-URI Too Large"), (415, text "Unsupported Media Type"),
    (416, text "Requested range not satisfiable"), (417, text "Expectation Failed"),
    (500, text "Internal Server Error"), (501, text "Not Implemented"), (502, text "Bad Gateway"),
    (503, text "Service Unavailable"), (504, text "Gateway Time-out"),
    (505, text "HTTP Version not supported")]

def reason (m_statusCode : Int32) (m_errorDescription : Bytes) : Bytes :=
  if m_errorDescription.isEmpty then (reasons.lookup m_statusCode).getD (text "Unknown")
  else cStr m_errorDescription

end HttpResponse

namespace HttpMessage

/-- A request has no status code to set. -/
def setStatusCode (message : HttpMessage) (statusCode : Int32) : HttpMessage :=
  match message.derived with
  | .response _ description => { message with derived := .response statusCode description }
  | .request _ _ => message

def setErrorDescription (message : HttpMessage) (errorDescription : Bytes) : HttpMessage :=
  match message.derived with
  | .response code _ => { message with derived := .response code errorDescription }
  | .request _ _ => message

def encodeFirstLine (message : HttpMessage) : Bytes :=
  match message.derived with
  | .request method url => method.asString ++ text " " ++ url.encode ++ text " " ++
      message.encodeVersion
  | .response code description => message.encodeVersion ++ text " " ++ asString code.toInt ++
      text " " ++ HttpResponse.reason code description

end HttpMessage

end Coffee.Http
