import Coffee.Basis.HexDump
import Coffee.Library.Ownership
import Coffee.Xml.Latin1

/-! # Documents and the trees under them

A `Document` owns the `xmlDoc` of its last parse, and the nodes of its root point into it. A `DTD`
owns what it was initialised with. What is behind a pointer is gone once its owner has released it.
-/

namespace Coffee.Xml

open Coffee.Basis Coffee.Library Runs Ownership

inductive Owner where
  | document (i : Nat)
  | dtd (i : Nat)
deriving DecidableEq, Repr

inductive Source where
  | file (path : Bytes) (isThere : Bool)
  | memory (buffer : Bytes)
deriving DecidableEq, Repr

def Source.isThere : Source → Bool
  | .file _ isThere => isThere
  | .memory _ => true

/-- The nodes of a root point into one `xmlDoc`. A root whose attributes or children cannot be extracted
is kept with those that could. -/
structure Root where
  xmlDoc : Nat
  node : Except RuntimeException Node

/-- The trees of libxml2 are numbered in the order in which they are made. -/
structure Documents where
  trees : Ownership Owner Nat
  m_root : Nat → Option Root

namespace Documents

def instantiate : Documents := ⟨⟨fun _ => none, [], []⟩, fun _ => none⟩

variable (lib : LibXml) (documents : Documents)

def releaseHandler (owner : Owner) : Documents :=
  { documents with trees := documents.trees.release owner }

/-- `setHandler` with the next tree, or with NULL. -/
def setHandler (owner : Owner) (isTree : Bool) : Documents :=
  { documents with
    trees := documents.trees.put owner (if isTree then some documents.trees.acquired.length else none) }

def readName : Source → Bytes
  | .file path _ => path
  | .memory _ => text "no-name"

def parseSource (document : Nat) (source : Source) (root : Option Element) :
    Except RuntimeException Element × Documents :=
  match source, root with
  | .file path false, _ => (.error ⟨text "File '" ++ path ++ text "' does not exist"⟩, documents)
  | .file path true, none =>
    (.error ⟨text "Some errors were found while parsing filename '" ++ path ++ text "'"⟩,
      documents.setHandler (.document document) false)
  | .memory buffer, none =>
    (.error ⟨text "Some errors were found while parsing memory: " ++
        (AsString.applyDataBlock buffer AsString.DefaultCharactersByLine).getD []⟩,
      documents.setHandler (.document document) false)
  | _, some root => (.ok root, documents.setHandler (.document document) true)

/-- `DTD::validate`, where there is a `DTD`, and what `xmlValidateDtd` finds. -/
def validate (dtd : Option (Nat × Bool)) (source : Source) : Except RuntimeException Unit :=
  match dtd with
  | none => .ok ()
  | some (dtd, isValid) =>
    if (documents.trees.holds (.dtd dtd)).isNone then
      .error ⟨text "Method xml::DTD::initialize was not called"⟩
    else if !isValid then
      .error ⟨text "Document " ++ readName source ++ text " does not match with DTD "⟩
    else .ok ()

/-- `extractNodes` of the tree that the document owns. -/
def extractNodes (document xmlDoc : Nat) (root : Element) :
    Except RuntimeException Unit × Documents :=
  let node := Document.extract lib root
  (node.map fun _ => (),
    { documents with m_root := Function.update documents.m_root document (some ⟨xmlDoc, node⟩) })

def parse (document : Nat) (source : Source) (root : Option Element) (dtd : Option (Nat × Bool)) :
    Except RuntimeException Unit × Documents :=
  let released := documents.releaseHandler (.document document)
  match released.parseSource document source root with
  | (.error ex, parsed) => (.error ex, parsed)
  | (.ok root, parsed) =>
    match parsed.validate dtd source with
    | .error ex => (.error ex, parsed)
    | .ok () => parsed.extractNodes lib document released.trees.acquired.length root

/-- `DTD::initialize` with a file, which can be read or not and holds a DTD or not. -/
def initializeDTD (dtd : Nat) (filename : Bytes) (reads parses : Bool) :
    Except RuntimeException Unit × Documents :=
  if !reads then (.error ⟨text "Could not open to read " ++ filename⟩, documents)
  else if !parses then (.error ⟨filename ++ text " does not contains a valid DTD"⟩, documents)
  else (.ok (), documents.setHandler (.dtd dtd) true)

inductive Call where
  | parse (document : Nat) (source : Source) (root : Option Element) (dtd : Option (Nat × Bool))
  | initializeDTD (dtd : Nat) (filename : Bytes) (reads parses : Bool)
  | destroyDocument (document : Nat)
  | destroyDTD (dtd : Nat)

/-- A document that is destroyed and made again starts without a root. -/
def step : Call → Documents
  | .parse document source root dtd => (documents.parse lib document source root dtd).2
  | .initializeDTD dtd filename reads parses =>
    (documents.initializeDTD dtd filename reads parses).2
  | .destroyDocument document =>
    { documents.releaseHandler (.document document) with
      m_root := Function.update documents.m_root document none }
  | .destroyDTD dtd => documents.releaseHandler (.dtd dtd)

def Uninitialized : Call → Prop
  | .initializeDTD dtd _ true true => documents.trees.holds (.dtd dtd) = none
  | _ => True

/-- The root element that a parse of the document extracts its nodes from. -/
def reached (document : Nat) : Call → Option Element
  | .parse document' source (some root) dtd =>
    if document' = document ∧ source.isThere = true ∧
        ∀ check ∈ dtd, (documents.trees.holds (.dtd check.1)).isSome ∧ check.2 = true then some root
    else none
  | _ => none

def Parses (document : Nat) : Call → Prop
  | .parse document' _ _ _ => document' = document
  | _ => False

/-- The root is left as it is: by a parse that ends in front of the nodes, and by other documents. -/
def Keeps (document : Nat) (documents : Documents) (call : Call) : Prop :=
  documents.reached document call = none ∧ call ≠ .destroyDocument document

def Dangling (document : Nat) : Prop :=
  ∃ root ∈ documents.m_root document, root.xmlDoc ∈ documents.trees.released

structure Consistent (documents : Documents) : Prop where
  trees : Numbered documents.trees
  m_root : ∀ document, ∀ root ∈ documents.m_root document, root.xmlDoc ∈ documents.trees.released ∨
    root.xmlDoc ∈ documents.trees.holds (.document document)

variable {lib documents} {document : Nat} {call : Call} {element : Element}

theorem consistent_instantiate : Consistent instantiate where
  trees := numbered_nil
  m_root _ _ h := by cases h

theorem parseSource_cases (documents : Documents) (document : Nat) (source : Source)
    (root : Option Element) :
    (source.isThere = false ∧ ∃ ex, documents.parseSource document source root =
        (.error ex, documents)) ∨
      (root = none ∧ ∃ ex, documents.parseSource document source root =
        (.error ex, documents.setHandler (.document document) false)) ∨
      source.isThere = true ∧ ∃ element, root = some element ∧
        documents.parseSource document source root =
          (.ok element, documents.setHandler (.document document) true) := by
  match source, root with
  | .file _ false, _ => exact .inl ⟨rfl, _, rfl⟩
  | .file _ true, none => exact .inr (.inl ⟨rfl, _, rfl⟩)
  | .memory _, none => exact .inr (.inl ⟨rfl, _, rfl⟩)
  | .file _ true, some element => exact .inr (.inr ⟨rfl, element, rfl, rfl⟩)
  | .memory _, some element => exact .inr (.inr ⟨rfl, element, rfl, rfl⟩)

theorem validate_eq_ok_iff {dtd : Option (Nat × Bool)} {source : Source} :
    documents.validate dtd source = .ok () ↔
      ∀ check ∈ dtd, (documents.trees.holds (.dtd check.1)).isSome ∧ check.2 = true := by
  match dtd with
  | none => simp [validate]
  | some (dtd, isValid) =>
    cases hholds : documents.trees.holds (.dtd dtd) <;> cases isValid <;> simp [validate, hholds]

theorem parse_spec (source : Source) (root : Option Element) (dtd : Option (Nat × Bool)) :
    ∃ r, (r = some documents.trees.acquired.length ∨ r = none) ∧
      (documents.parse lib document source root dtd).2.trees =
        (documents.trees.release (.document document)).put (.document document) r ∧
      match documents.reached document (.parse document source root dtd) with
      | none => (documents.parse lib document source root dtd).2.m_root = documents.m_root
      | some element => r = some documents.trees.acquired.length ∧
          (documents.parse lib document source root dtd).2.m_root = Function.update documents.m_root
            document (some ⟨documents.trees.acquired.length, Document.extract lib element⟩) := by
  rcases (documents.releaseHandler (.document document)).parseSource_cases document source root with
    ⟨hmissing, ex, hparse⟩ | ⟨rfl, ex, hparse⟩ | ⟨hthere, element, rfl, hparse⟩
  · have hput : (documents.trees.release (.document document)).put (.document document) none =
        documents.trees.release (.document document) := by
      simp [put, release]
    have hreached : documents.reached document (.parse document source root dtd) = none := by
      cases root <;> simp [reached, hmissing]
    rw [hreached]
    refine ⟨none, .inr rfl, ?_, ?_⟩
    · simp only [parse, hparse, hput]
      rfl
    · simp only [parse, hparse]
      rfl
  · refine ⟨none, .inr rfl, ?_, ?_⟩
    · simp only [parse, hparse]
      rfl
    · simp only [reached, parse, hparse]
      rfl
  · refine ⟨some documents.trees.acquired.length, .inl rfl, ?_⟩
    have hvalidate := @validate_eq_ok_iff ((documents.releaseHandler (.document document)).setHandler
      (.document document) true) dtd source
    have hdtd : ∀ i, ((documents.releaseHandler (.document document)).setHandler
        (.document document) true).trees.holds (.dtd i) = documents.trees.holds (.dtd i) := by
      intro i
      simp [setHandler, releaseHandler, put, release]
    simp only [hdtd] at hvalidate
    simp only [parse, hparse, reached, hthere, true_and]
    cases hcheck : ((documents.releaseHandler (.document document)).setHandler
        (.document document) true).validate dtd source with
    | error ex =>
      rw [if_neg fun hall => by rw [hvalidate.mpr hall] at hcheck; cases hcheck]
      exact ⟨rfl, rfl⟩
    | ok _ =>
      rw [if_pos (hvalidate.mp hcheck)]
      exact ⟨rfl, rfl⟩

theorem reached_of_ne {source : Source} {root : Option Element} {dtd : Option (Nat × Bool)}
    {other : Nat} (hne : other ≠ document) :
    documents.reached document (.parse other source root dtd) = none := by
  cases root <;> simp [reached, hne]

theorem Consistent.mem_released_iff (h : documents.Consistent) {root : Root}
    (hroot : root ∈ documents.m_root document) {owner : Owner} (hne : owner ≠ .document document) :
    root.xmlDoc ∈ (documents.trees.release owner).released ↔
      root.xmlDoc ∈ documents.trees.released := by
  rw [release, List.mem_append, Option.mem_toList, or_iff_left_of_imp]
  intro hheld
  rcases h.m_root document root hroot with hreleased | hholds
  · exact hreleased
  · exact absurd (h.trees.consistent.unique owner (.document document) _ hheld hholds) hne

theorem Consistent.released (h : documents.Consistent) (owner : Owner) :
    ∀ document, ∀ root ∈ documents.m_root document,
      root.xmlDoc ∈ (documents.trees.release owner).released ∨
        root.xmlDoc ∈ (documents.trees.release owner).holds (.document document) := by
  intro document root hroot
  by_cases hown : owner = .document document
  · subst hown
    refine .inl ?_
    rw [release, List.mem_append, Option.mem_toList]
    exact h.m_root document root hroot
  · rcases h.m_root document root hroot with hreleased | hholds
    · exact .inl ((h.mem_released_iff hroot hown).mpr hreleased)
    · exact .inr (mem_release_iff.mpr ⟨Ne.symm hown, hholds⟩)

theorem consistent_step (h : documents.Consistent) : (documents.step lib call).Consistent := by
  cases call with
  | parse document source root dtd =>
    obtain ⟨r, hr, htrees, hroot⟩ := @parse_spec lib documents document source root dtd
    have hreleased := h.trees.release (.document document)
    refine ⟨?_, fun other node hnode => ?_⟩
    · rw [step, htrees]
      exact hreleased.put _ hr
    · rw [step] at hnode ⊢
      rw [htrees]
      split at hroot
      · rw [hroot] at hnode
        rcases h.released (.document document) other node hnode with hgone | hheld
        · exact .inl hgone
        · exact .inr (mem_put_iff.mpr (.inr ⟨(mem_release_iff.mp hheld).1, hheld⟩))
      · obtain ⟨rfl, hroot⟩ := hroot
        rw [hroot] at hnode
        by_cases hother : other = document
        · subst hother
          rw [Function.update_self] at hnode
          cases hnode
          exact .inr (mem_put_iff.mpr (.inl ⟨rfl, rfl⟩))
        · rw [Function.update_of_ne hother] at hnode
          rcases h.released (.document document) other node hnode with hgone | hheld
          · exact .inl hgone
          · exact .inr (mem_put_iff.mpr (.inr ⟨(mem_release_iff.mp hheld).1, hheld⟩))
  | initializeDTD dtd filename reads parses =>
    cases reads <;> cases parses <;> simp only [step, initializeDTD] <;> try exact h
    refine ⟨h.trees.put _ (.inl rfl), fun document root hroot => ?_⟩
    rcases h.m_root document root hroot with hreleased | hholds
    · exact .inl hreleased
    · exact .inr (mem_put_iff.mpr (.inr ⟨by simp, hholds⟩))
  | destroyDocument document =>
    refine ⟨h.trees.release _, fun other root hroot => ?_⟩
    have hne : other ≠ document := by
      rintro rfl
      simp [step] at hroot
    simp only [step, Function.update_of_ne hne] at hroot
    exact h.released (.document document) other root hroot
  | destroyDTD dtd =>
    exact ⟨h.trees.release _, h.released (.dtd dtd)⟩

theorem consistent_run (calls : List Call) :
    (run (step lib) instantiate calls).Consistent :=
  @invariant _ _ (step lib) instantiate Consistent (fun _ _ h => consistent_step h)
    consistent_instantiate calls

theorem keeps_step (h : documents.Consistent) {root : Root} (hroot : root ∈ documents.m_root document)
    (hkeeps : Keeps document documents call) :
    root ∈ (documents.step lib call).m_root document ∧
      (root.xmlDoc ∈ (documents.step lib call).trees.released ↔
        root.xmlDoc ∈ documents.trees.released ∨ Parses document call) := by
  obtain ⟨hreached, hdestroy⟩ := hkeeps
  cases call with
  | parse other source element dtd =>
    obtain ⟨r, hr, htrees, hnext⟩ := @parse_spec lib documents other source element dtd
    simp only [step, htrees, put, Parses]
    by_cases hother : other = document
    · subst hother
      rw [hreached] at hnext
      rw [hnext]
      refine ⟨hroot, iff_of_true ?_ (.inr rfl)⟩
      rw [release, List.mem_append, Option.mem_toList]
      exact h.m_root _ root hroot
    · have hne : Owner.document other ≠ .document document := by simpa using hother
      rw [h.mem_released_iff hroot hne]
      refine ⟨?_, by simp [hother]⟩
      split at hnext
      · rw [hnext]
        exact hroot
      · rw [hnext.2, Function.update_of_ne (Ne.symm hother)]
        exact hroot
  | initializeDTD dtd filename reads parses =>
    cases reads <;> cases parses <;>
      simpa [step, initializeDTD, setHandler, put, Parses] using hroot
  | destroyDocument other =>
    have hother : other ≠ document := fun heq => hdestroy (by rw [heq])
    have hne : Owner.document other ≠ .document document := by simpa using hother
    refine ⟨?_, ?_⟩
    · simp only [step, Function.update_of_ne (Ne.symm hother)]
      exact hroot
    · exact (h.mem_released_iff hroot hne).trans (by simp [Parses])
  | destroyDTD dtd =>
    refine ⟨hroot, (h.mem_released_iff hroot (by simp)).trans (by simp [Parses])⟩

theorem keeps_run {calls : List Call} (h : documents.Consistent) {root : Root}
    (hroot : root ∈ documents.m_root document)
    (hkeeps : Meets (step lib) (Keeps document) documents calls) :
    root ∈ (run (step lib) documents calls).m_root document ∧
      (root.xmlDoc ∈ (run (step lib) documents calls).trees.released ↔
        root.xmlDoc ∈ documents.trees.released ∨ ∃ call ∈ calls, Parses document call) := by
  induction calls generalizing documents with
  | nil => exact ⟨hroot, by simp⟩
  | cons call calls ih =>
    obtain ⟨hnext, hreleased⟩ := keeps_step h hroot hkeeps.1
    obtain ⟨hlast, hgone⟩ := ih (consistent_step h) hnext hkeeps.2
    refine ⟨hlast, hgone.trans ?_⟩
    rw [hreleased, List.exists_mem_cons_iff, or_assoc]

theorem reached_step (h : documents.Consistent)
    (hreached : documents.reached document call = some element) :
    (documents.step lib call).m_root document =
        some ⟨documents.trees.acquired.length, Document.extract lib element⟩ ∧
      documents.trees.acquired.length ∉ (documents.step lib call).trees.released := by
  cases call with
  | parse other source root dtd =>
    obtain rfl : other = document := by
      by_contra hne
      rw [reached_of_ne hne] at hreached
      cases hreached
    obtain ⟨r, -, htrees, hnext⟩ := @parse_spec lib documents other source root dtd
    rw [hreached] at hnext
    refine ⟨?_, ?_⟩
    · rw [step, hnext.2, Function.update_self]
    · rw [step, htrees]
      intro hmem
      have hacquired := (h.trees.release (.document other)).consistent.released_subset hmem
      exact absurd (h.trees.number _ hacquired) (Nat.lt_irrefl _)
  | _ => cases hreached

/-- Behind a parse that extracted its nodes, until the next one that does: the root of the document
is the one of this parse, and its tree is gone as soon as any other source has been parsed, which
then failed. -/
theorem root_of_last_parse {calls more : List Call}
    (hreached : (run (step lib) instantiate calls).reached document call = some element)
    (hkeeps : Meets (step lib) (Keeps document)
      ((run (step lib) instantiate calls).step lib call) more) :
    (run (step lib) instantiate (calls ++ call :: more)).m_root document =
        some ⟨(run (step lib) instantiate calls).trees.acquired.length, Document.extract lib element⟩ ∧
      ((run (step lib) instantiate (calls ++ call :: more)).Dangling document ↔
        ∃ call ∈ more, Parses document call) := by
  have hconsistent := @consistent_run lib calls
  obtain ⟨hroot, hnew⟩ := @reached_step lib _ _ _ _ hconsistent hreached
  obtain ⟨hlast, hgone⟩ := keeps_run (consistent_step hconsistent) hroot hkeeps
  rw [run_append, run_cons]
  refine ⟨hlast, ?_⟩
  rw [Dangling, Option.mem_def.mp hlast]
  simp only [Option.mem_def, Option.some.injEq, exists_eq_left', hgone, hnew, false_or]

theorem root_of_missing_file :
    (run (step .latin1) instantiate
      [.parse 0 (.memory (text "<a/>")) (some ⟨none, text "a", [], []⟩) none,
        .parse 0 (.file (text "b.xml") false) none none]).Dangling 0 :=
  (@root_of_last_parse .latin1 0
    (.parse 0 (.memory (text "<a/>")) (some ⟨none, text "a", [], []⟩) none) ⟨none, text "a", [], []⟩
    [] [.parse 0 (.file (text "b.xml") false) none none] (by simp [reached, Source.isThere])
    ⟨⟨rfl, by simp⟩, trivial⟩).2.mpr ⟨_, List.mem_singleton_self _, rfl⟩

end Documents

end Coffee.Xml
