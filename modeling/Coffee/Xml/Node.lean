import Coffee.Basis.Text
import Coffee.Library.OrderedSet

/-! # XML trees

`xml::Node`, `xml::Document` and `xml::Compiler` over libxml2. Its parser and its writer hand trees
over as they are; the conversions between character sets are a parameter. Strings end at their NUL.
-/

namespace Coffee.Xml

open Coffee.Library Coffee.Basis

def isAscii (s : Bytes) : Bool := s.all (· < 128)

/-- `UTF8Toisolat1` writes one byte for a character of two or more, or stops at it. A handler gives
nothing when its conversion fails. -/
structure LibXml where
  xmlCheckUTF8 : Bytes → Bool
  UTF8Toisolat1 : Bytes → Bytes
  xmlFindCharEncodingHandler : Bytes → Option (Bytes → Option Bytes)
  check_ascii : ∀ s, isAscii s = true → xmlCheckUTF8 s = true
  latin1_ascii : ∀ s, isAscii s = true → UTF8Toisolat1 s = s
  latin1_length : ∀ s, xmlCheckUTF8 s = true → isAscii s = false →
    (UTF8Toisolat1 s).length < s.length

structure Namespace where
  nsPrefix : Option Bytes
  href : Bytes
deriving DecidableEq, Repr

/-! ## The trees of libxml2 -/

/-- An `xmlAttr`, with the content of its first child. -/
structure Property where
  ns : Option Namespace
  name : Bytes
  children : Option Bytes
deriving DecidableEq, Repr

/-- An `xmlNode`. Comments, sections and instructions are the nodes of other types. -/
inductive XmlNode where
  | element (ns : Option Namespace) (name : Bytes) (properties : List Property)
      (children : List XmlNode)
  | text (content : Bytes)
  | other

structure Element where
  ns : Option Namespace
  name : Bytes
  properties : List Property
  children : List XmlNode

def Element.toXmlNode (element : Element) : XmlNode :=
  .element element.ns element.name element.properties element.children

/-! ## Nodes -/

structure Attribute where
  ns : Option Namespace
  name : Bytes
  value : Bytes
deriving DecidableEq, Repr

abbrev AttributeContainer := OrderedSet Attribute.name

structure Node where
  ns : Option Namespace
  name : Bytes
  m_attributes : AttributeContainer
  m_children : List Node
  m_text : Option Bytes

variable (lib : LibXml)

/-- What is stored of a string: ISO 8859-1 if it was UTF-8. -/
def Content.setValue (value : Bytes) : Bytes :=
  if lib.xmlCheckUTF8 value then lib.UTF8Toisolat1 value else value

namespace Node

def ofHandler (ns : Option Namespace) (name : Bytes) : Node := ⟨ns, name, .empty, [], none⟩

def addChild (node child : Node) : Node := { node with m_children := node.m_children ++ [child] }

def setText (node : Node) (text : Bytes) : Node :=
  { node with m_text := some (Content.setValue lib text) }

def addAttribute (node : Node) (attr : Attribute) : Except RuntimeException Node :=
  match node.m_attributes.insert attr with
  | some m_attributes => .ok { node with m_attributes }
  | none => .error ⟨attr.name ++ text " is already defined in node '" ++ node.name ++ text "'"⟩

/-- The child inherits the namespace. -/
def createChild (node : Node) (name : Bytes) : Node := node.addChild (ofHandler node.ns name)

def createAttribute (node : Node) (name value : Bytes) : Except RuntimeException Node :=
  node.addAttribute ⟨none, name, Content.setValue lib value⟩

def createText (node : Node) (text : Bytes) : Node := node.setText lib text

end Node

/-! ## Documents -/

namespace Document

def extractAttributes : List Property → Node → Except RuntimeException Node
  | [], node => .ok node
  | xmlAttribute :: next, node => do
    let value := Content.setValue lib (xmlAttribute.children.getD [])
    extractAttributes next (← node.addAttribute ⟨xmlAttribute.ns, xmlAttribute.name, value⟩)

mutual

def extractNode : XmlNode → Node → Except RuntimeException Node
  | .element ns name properties children, node => do
    let child ← extractNodes children (Node.ofHandler ns name)
    return node.addChild (← extractAttributes lib properties child)
  | .text content, node => .ok (node.setText lib content)
  | .other, node => .ok node

def extractNodes : List XmlNode → Node → Except RuntimeException Node
  | [], node => .ok node
  | handler :: next, node => do extractNodes next (← extractNode handler node)

end

/-- `m_root` of the document with this root element. -/
def extract (root : Element) : Except RuntimeException Node := do
  let m_root ← extractNodes lib root.children (Node.ofHandler root.ns root.name)
  extractAttributes lib root.properties m_root

end Document

/-! ## The writer -/

/-- The elements that are begun, from the innermost outwards, and those that are finished. -/
structure Writer where
  opened : List Element
  finished : List Element

namespace Writer

def write (writer : Writer) (element : Element) : Writer :=
  match writer.opened with
  | [] => { writer with finished := writer.finished ++ [element] }
  | parent :: opened =>
    { writer with
      opened := { parent with children := parent.children ++ [element.toXmlNode] } :: opened }

def startElement (writer : Writer) (ns : Option Namespace) (name : Bytes) : Option Writer :=
  some { writer with opened := ⟨ns, name, [], []⟩ :: writer.opened }

def writeAttribute (writer : Writer) (ns : Option Namespace) (name value : Bytes) :
    Option Writer :=
  match writer.opened with
  | [] => none
  | element :: opened =>
    if element.children.isEmpty then
      let children := if value.isEmpty then none else some value
      some { writer with
        opened := { element with properties := element.properties ++ [⟨ns, name, children⟩] } ::
          opened }
    else none

/-- An empty string leaves no text in the tree. -/
def writeString (writer : Writer) (content : Bytes) : Option Writer :=
  match writer.opened with
  | [] => none
  | element :: opened =>
    if content.isEmpty then some writer
    else some { writer with
      opened := { element with children := element.children ++ [.text content] } :: opened }

def endElement (writer : Writer) : Option Writer :=
  match writer.opened with
  | [] => none
  | element :: opened => some (write { writer with opened } element)

def writeElement (writer : Writer) (ns : Option Namespace) (name content : Bytes) :
    Option Writer := do
  let writer ← writer.startElement ns name
  let writer ← writer.writeString content
  writer.endElement

end Writer

namespace Compiler

def encode (m_encoding : Option Bytes) (s : Bytes) : Except RuntimeException Bytes :=
  match m_encoding with
  | none => .ok s
  | some encoding =>
    if isAscii s then .ok s
    else match lib.xmlFindCharEncodingHandler encoding with
      | none => .error ⟨text "Encoding '" ++ encoding ++ text "' was not found"⟩
      | some input => match input s with
        | none => .error ⟨text "Can not encoding '" ++ s ++ text "applying '" ++ encoding ++ text "'"⟩
        | some encoded => .ok encoded

/-- The checks of the writer's return codes. -/
def checked (message : Bytes) : Option Writer → Except RuntimeException Writer
  | some writer => .ok writer
  | none => .error ⟨message⟩

end Compiler

open Compiler

variable (m_encoding : Option Bytes)

def Attribute.compile (attr : Attribute) (writer : Writer) : Except RuntimeException Writer := do
  let value ← encode lib m_encoding attr.value
  checked (text "Can not compile attribute " ++ attr.name)
    (writer.writeAttribute attr.ns attr.name value)

namespace Node

def compileAttributes : List Attribute → Writer → Except RuntimeException Writer
  | [], writer => .ok writer
  | attr :: next, writer => do
    compileAttributes next (← attr.compile lib m_encoding writer)

mutual

def compile : Node → Writer → Except RuntimeException Writer
  | ⟨ns, name, m_attributes, m_children, m_text⟩, writer => do
    let message := text "Can not compile node " ++ name
    match m_text with
    | none =>
      let writer ← checked message (writer.startElement ns name)
      let writer ← compileAttributes lib m_encoding m_attributes.elements writer
      let writer ← compileChildren m_children writer
      checked message writer.endElement
    | some value =>
      let value ← encode lib m_encoding value
      checked message (writer.writeElement ns name value)

def compileChildren : List Node → Writer → Except RuntimeException Writer
  | [], writer => .ok writer
  | child :: next, writer => do compileChildren next (← compile child writer)

end

end Node

/-- The root elements of the output. A document is compiled as its root, under its own encoding. -/
def Compiler.apply (node : Node) : Except RuntimeException (List Element) :=
  (node.compile lib m_encoding ⟨[], []⟩).map Writer.finished

/-! ## What a tree holds -/

/-- The names, attributes, texts and children of a node. -/
structure Tree where
  name : Bytes
  attributes : List (Bytes × Bytes)
  text : Option Bytes
  children : List Tree

namespace Node

mutual

def tree : Node → Tree
  | ⟨_, name, m_attributes, m_children, m_text⟩ =>
    ⟨name, m_attributes.elements.map fun attr => (attr.name, attr.value), m_text,
      trees m_children⟩

def trees : List Node → List Tree
  | [] => []
  | node :: nodes => node.tree :: trees nodes

end

end Node

end Coffee.Xml
