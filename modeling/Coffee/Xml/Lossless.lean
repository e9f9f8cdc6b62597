import Coffee.Xml.Latin1
import Mathlib.Tactic.Tauto

/-! # What a compiled tree keeps

The element that `compile` writes, and the tree that is extracted from it. A node with a text is
written without its attributes and its children.
-/

namespace Coffee.Xml

open Coffee.Library Coffee.Basis Compiler

variable (lib : LibXml) (m_encoding : Option Bytes)

/-! ## Strings -/

/-- A stored string that is written and stored again as it is. -/
def Carried (value : Bytes) : Prop :=
  isAscii value = true ∨ match m_encoding with
    | none => lib.xmlCheckUTF8 value = false
    | some encoding => ∃ input encoded, lib.xmlFindCharEncodingHandler encoding = some input ∧
        input value = some encoded ∧ Content.setValue lib encoded = value

variable {lib m_encoding}

theorem setValue_of_isAscii {value : Bytes} (h : isAscii value = true) :
    Content.setValue lib value = value := by
  rw [Content.setValue, if_pos (lib.check_ascii value h), lib.latin1_ascii value h]

theorem encode_of_isAscii {value : Bytes} (h : isAscii value = true) :
    encode lib m_encoding value = .ok value := by
  cases m_encoding with
  | none => rfl
  | some encoding => rw [encode, if_pos h]

theorem carried_iff {value : Bytes} : Carried lib m_encoding value ↔
    ∃ encoded, encode lib m_encoding value = .ok encoded ∧
      Content.setValue lib encoded = value := by
  unfold Carried
  by_cases hascii : isAscii value = true
  · simp only [hascii, true_or, true_iff]
    exact ⟨value, encode_of_isAscii hascii, setValue_of_isAscii hascii⟩
  · have hfalse : isAscii value = false := by simpa using hascii
    cases m_encoding with
    | none =>
      simp only [hfalse, Bool.false_eq_true, false_or, encode, Except.ok.injEq, exists_eq_left',
        Content.setValue]
      cases hcheck : lib.xmlCheckUTF8 value with
      | false => simp
      | true =>
        have hlength := lib.latin1_length value hcheck hfalse
        have hne : lib.UTF8Toisolat1 value ≠ value := by
          intro heq
          rw [heq] at hlength
          exact Nat.lt_irrefl _ hlength
        simp [hne]
    | some encoding =>
      simp only [hfalse, Bool.false_eq_true, false_or, encode, if_false]
      cases hhandler : lib.xmlFindCharEncodingHandler encoding with
      | none => simp
      | some input =>
        cases hinput : input value with
        | none => simp [hinput]
        | some encoded => simp [hinput]

/-- With its encoding set, every string of ISO 8859-1 is carried. -/
theorem carried_latin1 (value : Bytes) :
    Carried LibXml.latin1 (some (text "ISO-8859-1")) value := by
  have hhandler : LibXml.latin1.xmlFindCharEncodingHandler (text "ISO-8859-1") =
      some fun s => some (isolat1ToUTF8 s) := by
    simp only [LibXml.latin1, if_true]
  refine .inr ⟨_, isolat1ToUTF8 value, hhandler, rfl, ?_⟩
  rw [Content.setValue, LibXml.latin1, if_pos (checkUTF8_isolat1ToUTF8 value)]
  exact utf8ToIsolat1_isolat1ToUTF8 value

/-! ## The element that is written -/

variable (lib m_encoding)

def writtenProperty (attr : Attribute) : Except RuntimeException Property := do
  let value ← encode lib m_encoding attr.value
  return ⟨attr.ns, attr.name, if value.isEmpty then none else some value⟩

namespace Node

mutual

def written : Node → Except RuntimeException Element
  | ⟨ns, name, m_attributes, m_children, m_text⟩ =>
    match m_text with
    | none => do
      let properties ← m_attributes.elements.mapM (writtenProperty lib m_encoding)
      return ⟨ns, name, properties, ← writtenChildren m_children⟩
    | some value => do
      let value ← encode lib m_encoding value
      return ⟨ns, name, [], if value.isEmpty then [] else [.text value]⟩

def writtenChildren : List Node → Except RuntimeException (List XmlNode)
  | [] => .ok []
  | child :: next => do
    let element ← written child
    return element.toXmlNode :: (← writtenChildren next)

end

/-- A node with a text has no attribute and no child, and no string is changed. -/
inductive Lossless : Node → Prop where
  | text {ns : Option Namespace} {name value : Bytes} {m_attributes : AttributeContainer}
      (no_attributes : m_attributes.elements = []) (ne_nil : value ≠ [])
      (carried : Carried lib m_encoding value) :
      Lossless ⟨ns, name, m_attributes, [], some value⟩
  | tree {ns : Option Namespace} {name : Bytes} {m_attributes : AttributeContainer}
      {m_children : List Node}
      (attributes : ∀ attr ∈ m_attributes.elements, Carried lib m_encoding attr.value)
      (children : ∀ child ∈ m_children, Lossless child) :
      Lossless ⟨ns, name, m_attributes, m_children, none⟩

end Node

variable {lib m_encoding}

theorem compileAttributes_eq (attributes : List Attribute) (element : Element)
    (opened finished : List Element) (hchildren : element.children = []) :
    Node.compileAttributes lib m_encoding attributes ⟨element :: opened, finished⟩ =
      (attributes.mapM (writtenProperty lib m_encoding)).map fun properties =>
        ⟨{ element with properties := element.properties ++ properties } :: opened, finished⟩ := by
  induction attributes generalizing element with
  | nil => simp [Node.compileAttributes, Except.map, pure, Except.pure]
  | cons attr next ih =>
    rw [Node.compileAttributes, List.mapM_cons, Attribute.compile, writtenProperty]
    dsimp only [bind, Except.bind, pure, Except.pure]
    cases encode lib m_encoding attr.value with
    | error ex => rfl
    | ok value =>
      dsimp only
      rw [Writer.writeAttribute]
      dsimp only
      rw [if_pos (by rw [hchildren]; rfl), checked]
      dsimp only
      rw [ih]
      · cases next.mapM (writtenProperty lib m_encoding) <;> simp [Except.map]
      · exact hchildren

mutual

theorem compile_eq (node : Node) (writer : Writer) : node.compile lib m_encoding writer =
    (node.written lib m_encoding).map writer.write := by
  cases node with
  | mk ns name m_attributes m_children m_text =>
    unfold Node.compile Node.written
    cases m_text with
    | none =>
      dsimp only [Writer.startElement, checked, bind, Except.bind, pure, Except.pure]
      rw [compileAttributes_eq _ _ _ _ rfl]
      cases m_attributes.elements.mapM (writtenProperty lib m_encoding) with
      | error ex => rfl
      | ok properties =>
        dsimp only [Except.map]
        rw [compileChildren_eq]
        cases Node.writtenChildren lib m_encoding m_children <;> rfl
    | some value =>
      dsimp only [bind, Except.bind, pure, Except.pure]
      cases encode lib m_encoding value with
      | error ex => rfl
      | ok value =>
        dsimp only [Except.map]
        cases value <;> rfl

theorem compileChildren_eq (children : List Node) (parent : Element) (opened finished : List Element) :
    Node.compileChildren lib m_encoding children ⟨parent :: opened, finished⟩ =
      (Node.writtenChildren lib m_encoding children).map fun written =>
        ⟨{ parent with children := parent.children ++ written } :: opened, finished⟩ := by
  cases children with
  | nil => simp [Node.compileChildren, Node.writtenChildren, Except.map]
  | cons child next =>
    rw [Node.compileChildren, Node.writtenChildren, compile_eq]
    dsimp only [bind, Except.bind, pure, Except.pure]
    cases child.written lib m_encoding with
    | error ex => rfl
    | ok element =>
      dsimp only [Except.map, Writer.write]
      rw [compileChildren_eq]
      cases Node.writtenChildren lib m_encoding next <;> simp [Except.map]

end

/-! ## Trees that are built -/

namespace Node

variable {ns : Option Namespace} {name : Bytes} {m_attributes : AttributeContainer}
  {m_children : List Node}

theorem lossless_none_iff : Lossless lib m_encoding ⟨ns, name, m_attributes, m_children, none⟩ ↔
    (∀ attr ∈ m_attributes.elements, Carried lib m_encoding attr.value) ∧
      ∀ child ∈ m_children, Lossless lib m_encoding child := by
  constructor
  · intro h
    cases h with
    | tree attributes children => exact ⟨attributes, children⟩
  · intro h
    exact .tree h.1 h.2

theorem lossless_some_iff {value : Bytes} :
    Lossless lib m_encoding ⟨ns, name, m_attributes, m_children, some value⟩ ↔
      m_attributes.elements = [] ∧ m_children = [] ∧ value ≠ [] ∧
        Carried lib m_encoding value := by
  constructor
  · intro h
    cases h with
    | text no_attributes ne_nil carried => exact ⟨no_attributes, rfl, ne_nil, carried⟩
  · rintro ⟨no_attributes, rfl, ne_nil, carried⟩
    exact .text no_attributes ne_nil carried

theorem lossless_createChild_iff {node : Node} {name : Bytes} :
    (node.createChild name).Lossless lib m_encoding ↔
      node.Lossless lib m_encoding ∧ node.m_text = none := by
  have hchild : (ofHandler node.ns name).Lossless lib m_encoding :=
    lossless_none_iff.mpr ⟨fun _ h => (List.not_mem_nil h).elim, fun _ h => (List.not_mem_nil h).elim⟩
  obtain ⟨ns, own, m_attributes, m_children, m_text⟩ := node
  cases m_text with
  | none =>
    simp only [createChild, addChild, lossless_none_iff, List.forall_mem_append,
      List.forall_mem_singleton, hchild, and_true]
  | some value => simp [createChild, addChild, lossless_some_iff]

theorem lossless_createAttribute_iff {node node' : Node} {name value : Bytes}
    (h : node.createAttribute lib name value = .ok node') : node'.Lossless lib m_encoding ↔
      node.Lossless lib m_encoding ∧ node.m_text = none ∧
        Carried lib m_encoding (Content.setValue lib value) := by
  obtain ⟨ns, own, m_attributes, m_children, m_text⟩ := node
  unfold createAttribute addAttribute at h
  split at h
  · next m_attributes' hinsert =>
    cases h
    have hmem := OrderedSet.mem_insert_iff hinsert
    cases m_text with
    | none =>
      simp only [lossless_none_iff, hmem, forall_eq_or_imp]
      tauto
    | some value =>
      have hne : m_attributes'.elements ≠ [] :=
        List.ne_nil_of_mem ((hmem _).mpr (.inl rfl))
      simp [lossless_some_iff, hne]
  · cases h

theorem lossless_createText_iff {node : Node} {value : Bytes} :
    (node.createText lib value).Lossless lib m_encoding ↔
      node.m_attributes.elements = [] ∧ node.m_children = [] ∧ Content.setValue lib value ≠ [] ∧
        Carried lib m_encoding (Content.setValue lib value) :=
  lossless_some_iff

end Node

/-! ## The tree that is extracted -/

theorem mapM_writtenProperty_cons {attr : Attribute} {next : List Attribute}
    {properties : List Property} :
    (attr :: next).mapM (writtenProperty lib m_encoding) = .ok properties ↔
      ∃ encoded rest, encode lib m_encoding attr.value = .ok encoded ∧
        next.mapM (writtenProperty lib m_encoding) = .ok rest ∧
        properties = ⟨attr.ns, attr.name, if encoded.isEmpty then none else some encoded⟩ :: rest := by
  rw [List.mapM_cons, writtenProperty]
  dsimp only [bind, Except.bind, pure, Except.pure]
  constructor
  · intro h
    cases hencode : encode lib m_encoding attr.value with
    | error ex =>
      rw [hencode] at h
      cases h
    | ok encoded =>
      rw [hencode] at h
      dsimp only at h
      cases hrest : next.mapM (writtenProperty lib m_encoding) with
      | error ex =>
        rw [hrest] at h
        cases h
      | ok rest =>
        rw [hrest] at h
        cases h
        exact ⟨encoded, rest, rfl, rfl, rfl⟩
  · rintro ⟨encoded, rest, hencode, hrest, rfl⟩
    rw [hencode]
    dsimp only
    rw [hrest]

/-- The attributes come back in their order, each with what its value is stored as. -/
theorem extractAttributes_written {attributes : List Attribute}
    (hsorted : attributes.Pairwise fun a b => a.name < b.name) {properties : List Property}
    (h : attributes.mapM (writtenProperty lib m_encoding) = .ok properties) (node : Node)
    (hfront : ∀ front ∈ node.m_attributes.elements, ∀ attr ∈ attributes, front.name < attr.name) :
    ∃ (m_attributes : AttributeContainer) (stored : List Attribute),
      Document.extractAttributes lib properties node = .ok { node with m_attributes } ∧
        m_attributes.elements = node.m_attributes.elements ++ stored ∧
        (stored.map (fun attr => (attr.name, attr.value)) =
            attributes.map (fun attr => (attr.name, attr.value)) ↔
          ∀ attr ∈ attributes, Carried lib m_encoding attr.value) := by
  induction attributes generalizing properties node with
  | nil =>
    rw [List.mapM_nil] at h
    cases h
    cases node
    exact ⟨_, [], rfl, (List.append_nil _).symm, by simp⟩
  | cons attr next ih =>
    obtain ⟨hattr, hnext⟩ := List.pairwise_cons.mp hsorted
    obtain ⟨encoded, rest, hencode, hrest, rfl⟩ := mapM_writtenProperty_cons.mp h
    have hvalue : (if encoded.isEmpty = true then none else some encoded).getD [] =
        encoded := by
      cases encoded <;> rfl
    obtain ⟨m_attributes, hinsert, helements⟩ := node.m_attributes.insert_last
      (a := ⟨attr.ns, attr.name, Content.setValue lib encoded⟩)
      fun front hmem => hfront front hmem attr List.mem_cons_self
    obtain ⟨m_attributes', stored, hextract, helements', hstored⟩ :=
      ih hnext hrest { node with m_attributes } (by
        intro front hmem other hother
        rw [helements] at hmem
        rcases List.mem_append.mp hmem with hmem | hmem
        · exact hfront front hmem other (List.mem_cons_of_mem attr hother)
        · rw [List.mem_singleton.mp hmem]
          exact hattr other hother)
    refine ⟨m_attributes', ⟨attr.ns, attr.name, Content.setValue lib encoded⟩ :: stored,
      ?_, ?_, ?_⟩
    · rw [Document.extractAttributes]
      dsimp only [bind, Except.bind]
      rw [hvalue, Node.addAttribute, hinsert]
      exact hextract
    · rw [helements', helements, List.append_assoc]
      rfl
    · rw [List.map_cons, List.map_cons, List.cons.injEq, hstored, List.forall_mem_cons,
        carried_iff, hencode]
      simp

theorem extractNode_toXmlNode (element : Element) (parent : Node) :
    Document.extractNode lib element.toXmlNode parent =
      (Document.extract lib element).map parent.addChild := by
  rw [Element.toXmlNode, Document.extractNode, Document.extract]
  dsimp only [bind, Except.bind, pure, Except.pure]
  cases Document.extractNodes lib element.children (Node.ofHandler element.ns element.name) with
  | error ex => rfl
  | ok child =>
    dsimp only
    cases Document.extractAttributes lib element.properties child <;> rfl

theorem Node.trees_eq_nil_iff {children : List Node} : Node.trees children = [] ↔ children = [] := by
  cases children <;> simp [Node.trees]

theorem extract_written_text {ns : Option Namespace} {name value : Bytes}
    {m_attributes : AttributeContainer} {m_children : List Node} {element : Element}
    (h : Node.written lib m_encoding ⟨ns, name, m_attributes, m_children, some value⟩ =
      .ok element) :
    ∃ root, Document.extract lib element = .ok root ∧
      (root.tree = Node.tree ⟨ns, name, m_attributes, m_children, some value⟩ ↔
        Node.Lossless lib m_encoding ⟨ns, name, m_attributes, m_children, some value⟩) := by
  unfold Node.written at h
  dsimp only [bind, Except.bind, pure, Except.pure] at h
  cases hencode : encode lib m_encoding value with
  | error ex =>
    rw [hencode] at h
    cases h
  | ok encoded =>
    rw [hencode] at h
    cases h
    refine ⟨⟨ns, name, .empty, [],
      if encoded.isEmpty then none else some (Content.setValue lib encoded)⟩, ?_, ?_⟩
    · cases encoded <;> rfl
    · rw [Node.lossless_some_iff, carried_iff, hencode]
      simp only [Except.ok.injEq, exists_eq_left']
      unfold Node.tree
      cases encoded with
      | nil =>
        have hempty : value ≠ [] → ¬ Content.setValue lib [] = value := by
          intro hne heq
          exact hne (heq.symm.trans (setValue_of_isAscii rfl))
        simp only [List.isEmpty_nil, if_true, Tree.mk.injEq, reduceCtorEq, false_and, and_false,
          false_iff, not_and]
        exact fun _ _ => hempty
      | cons c encoded =>
        have hne : value ≠ [] := by
          rintro rfl
          rw [encode_of_isAscii rfl] at hencode
          cases hencode
        simp only [List.isEmpty_cons, Bool.false_eq_true, if_false, OrderedSet.empty,
          List.map_nil, Node.trees, Tree.mk.injEq, Option.some.injEq, true_and,
          List.nil_eq, List.map_eq_nil_iff, Node.trees_eq_nil_iff, hne, ne_eq, not_false_eq_true]
        tauto

mutual

theorem extract_written (node : Node) {element : Element}
    (h : node.written lib m_encoding = .ok element) :
    ∃ root, Document.extract lib element = .ok root ∧
      (root.tree = node.tree ↔ node.Lossless lib m_encoding) := by
  cases node with
  | mk ns name m_attributes m_children m_text =>
    cases m_text with
    | none =>
      unfold Node.written at h
      dsimp only [bind, Except.bind, pure, Except.pure] at h
      cases hproperties : m_attributes.elements.mapM (writtenProperty lib m_encoding) with
      | error ex =>
        rw [hproperties] at h
        cases h
      | ok properties =>
        rw [hproperties] at h
        dsimp only at h
        cases hchildren : Node.writtenChildren lib m_encoding m_children with
        | error ex =>
          rw [hchildren] at h
          cases h
        | ok children =>
          rw [hchildren] at h
          cases h
          obtain ⟨nodes, hnodes, htrees⟩ :=
            extractNodes_written m_children hchildren (Node.ofHandler ns name)
          obtain ⟨m_attributes', stored, hextract, hstored, hcarried⟩ :=
            extractAttributes_written m_attributes.sorted hproperties
              { Node.ofHandler ns name with m_children := nodes } (by
                intro front hmem
                cases hmem)
          refine ⟨⟨ns, name, m_attributes', nodes, none⟩, ?_, ?_⟩
          · rw [Document.extract]
            dsimp only [bind, Except.bind]
            rw [hnodes]
            exact hextract
          · have helements : m_attributes'.elements = stored := hstored
            rw [Node.lossless_none_iff, ← hcarried, ← htrees]
            unfold Node.tree
            simp [helements]
    | some value => exact extract_written_text h

theorem extractNodes_written (children : List Node) {written : List XmlNode}
    (h : Node.writtenChildren lib m_encoding children = .ok written) (parent : Node) :
    ∃ nodes, Document.extractNodes lib written parent =
        .ok { parent with m_children := parent.m_children ++ nodes } ∧
      (Node.trees nodes = Node.trees children ↔
        ∀ child ∈ children, child.Lossless lib m_encoding) := by
  cases children with
  | nil =>
    rw [Node.writtenChildren] at h
    cases h
    cases parent
    exact ⟨[], by simp [Document.extractNodes], by simp⟩
  | cons child next =>
    rw [Node.writtenChildren] at h
    dsimp only [bind, Except.bind, pure, Except.pure] at h
    cases hchild : child.written lib m_encoding with
    | error ex =>
      rw [hchild] at h
      cases h
    | ok element =>
      rw [hchild] at h
      dsimp only at h
      cases hnext : Node.writtenChildren lib m_encoding next with
      | error ex =>
        rw [hnext] at h
        cases h
      | ok rest =>
        rw [hnext] at h
        cases h
        obtain ⟨root, hroot, hlossless⟩ := extract_written child hchild
        obtain ⟨nodes, hnodes, htrees⟩ := extractNodes_written next hnext (parent.addChild root)
        refine ⟨root :: nodes, ?_, ?_⟩
        · rw [Document.extractNodes, extractNode_toXmlNode, hroot]
          dsimp only [bind, Except.bind, Except.map]
          rw [hnodes]
          simp [Node.addChild]
        · rw [Node.trees, Node.trees, List.cons.injEq, hlossless, htrees, List.forall_mem_cons]

end

namespace Node

theorem mapM_writtenProperty_ok {attributes : List Attribute}
    (h : ∀ attr ∈ attributes, Carried lib m_encoding attr.value) :
    ∃ properties, attributes.mapM (writtenProperty lib m_encoding) = .ok properties := by
  induction attributes with
  | nil => exact ⟨[], List.mapM_nil⟩
  | cons attr next ih =>
    obtain ⟨hattr, hnext⟩ := List.forall_mem_cons.mp h
    obtain ⟨encoded, hencode, -⟩ := carried_iff.mp hattr
    obtain ⟨properties, hproperties⟩ := ih hnext
    exact ⟨_, mapM_writtenProperty_cons.mpr ⟨encoded, properties, hencode, hproperties, rfl⟩⟩

theorem writtenChildren_ok {children : List Node}
    (h : ∀ child ∈ children, ∃ element, child.written lib m_encoding = .ok element) :
    ∃ written, writtenChildren lib m_encoding children = .ok written := by
  induction children with
  | nil => exact ⟨[], rfl⟩
  | cons child next ih =>
    obtain ⟨⟨element, helement⟩, hnext⟩ := List.forall_mem_cons.mp h
    obtain ⟨written, hwritten⟩ := ih hnext
    refine ⟨element.toXmlNode :: written, ?_⟩
    rw [writtenChildren, helement, hwritten]
    rfl

theorem Lossless.written_ok {node : Node} (h : node.Lossless lib m_encoding) :
    ∃ element, node.written lib m_encoding = .ok element := by
  induction h with
  | text no_attributes ne_nil carried =>
    obtain ⟨encoded, hencode, -⟩ := carried_iff.mp carried
    unfold written
    dsimp only [bind, Except.bind]
    rw [hencode]
    exact ⟨_, rfl⟩
  | tree attributes children ih =>
    obtain ⟨properties, hproperties⟩ := mapM_writtenProperty_ok attributes
    obtain ⟨written, hwritten⟩ := writtenChildren_ok ih
    unfold Node.written
    dsimp only [bind, Except.bind]
    rw [hproperties]
    dsimp only
    rw [hwritten]
    exact ⟨_, rfl⟩

variable (lib m_encoding)

/-- The same tree comes back from what is compiled. -/
def Restored (node : Node) : Prop := ∃ element root,
  Compiler.apply lib m_encoding node = .ok [element] ∧
    Document.extract lib element = .ok root ∧ root.tree = node.tree

/-- Compiling and extracting gives a tree back just where it is lossless. -/
theorem restored_iff (node : Node) :
    node.Restored lib m_encoding ↔ node.Lossless lib m_encoding := by
  have happly : Compiler.apply lib m_encoding node =
      (node.written lib m_encoding).map fun element => [element] := by
    rw [Compiler.apply, compile_eq]
    cases node.written lib m_encoding <;> rfl
  constructor
  · rintro ⟨element, root, hcompile, hextract, htree⟩
    cases hwritten : node.written lib m_encoding with
    | error ex =>
      rw [happly, hwritten] at hcompile
      cases hcompile
    | ok element' =>
      rw [happly, hwritten] at hcompile
      cases hcompile
      obtain ⟨root', hextract', hlossless⟩ := extract_written node hwritten
      rw [hextract] at hextract'
      cases hextract'
      exact hlossless.mp htree
  · intro h
    obtain ⟨element, hwritten⟩ := h.written_ok
    obtain ⟨root, hextract, hlossless⟩ := extract_written node hwritten
    refine ⟨element, root, ?_, hextract, hlossless.mpr h⟩
    rw [happly, hwritten]
    rfl

/-- `<a><b/>t</a>`, built by `createChild` and `createText`, comes back as `<a>t</a>`. -/
theorem not_restored :
    ¬ ∀ (lib : LibXml) (m_encoding : Option Bytes) (node : Node), node.Restored lib m_encoding := by
  intro h
  obtain ⟨element, root, hcompile, hextract, htree⟩ :=
    h .latin1 none (((ofHandler none [97]).createChild [98]).createText .latin1 [116])
  cases hcompile
  cases hextract
  cases htree

end Node

end Coffee.Xml
