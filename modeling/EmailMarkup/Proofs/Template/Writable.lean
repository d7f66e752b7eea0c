import EmailMarkup.Proofs.Text.Search
import EmailMarkup.Template.Basic
/-!
# Trees that can be written and read back

`isWritable` says which nodes keep their form when they are written as markup and read again: names are
names for the reader, blanks in attribute values are spaces, text and comments hold nothing that the
reader would take for markup, and the one verbatim text of an ending tag does not end too early. It can
be evaluated. `strict` is the markup of such a node with verbatim text marked as verbatim, which is what
the reader gets to see.
-/
namespace EmailMarkup.Template

open EmailMarkup.Text

/-! ## Writable nodes -/

def isName (s : String) : Bool :=
  match s.toList with
  | c :: r => isNameStart c && r.all isNameChar
  | [] => false

/-- Attributes with names of their own, and no blanks but spaces in their values. -/
def areWritableAttributes (a : Attributes) : Bool :=
  decide (a.entries.map Prod.fst).Nodup &&
    a.entries.all fun e => isName e.1 && e.2.toList.all fun c => c != '\t' && c != '\n' && c != '\r'

/-- Text that is more than layout, without marks of markup. -/
def isWritableText (content : List Char) : Bool :=
  !content.all isAsciiBlank && !content.contains '<' && !content.contains '&' && !occurs cdataClose content

/-- A comment without marks of markup. -/
def isWritableComment (content : List Char) : Bool :=
  !content.contains '<' && !content.contains '&' && !occurs commentClose content

/-- Content of an ending tag that ends where the tag does, and is not marked as verbatim already. -/
def isWritableContent (tag : String) (content : List Char) : Bool :=
  !content.isEmpty && !occurs cdataClose content && (textBefore? (closesTag tag) content).isNone &&
    !startsWith cdataOpen (trimBoth isBlank content)

/-- Children of an ending tag: none, or its content as one verbatim text. -/
def isWritableBlock (tag : String) : List Node → Bool
  | [] => true
  | [.cdata content] => isWritableContent tag content.toList
  | _ => false

def isText : Node → Bool
  | .text _ => true
  | _ => false

mutual

/-- Whether a node is written in a form that is read back as the node. -/
def isWritable : Node → Bool
  | .element tag a children =>
    isName tag && areWritableAttributes a &&
      if isEndingTag tag then isWritableBlock tag children else areWritable children
  | .text content => isWritableText content.toList
  | .comment content => isWritableComment content.toList
  | .cdata _ => false

/-- Whether nodes are written in a form that is read back as the nodes: two texts in a row would be read
as one. -/
def areWritable : List Node → Bool
  | [] => true
  | n :: rest => isWritable n && areWritable rest && !(isText n && rest.head?.any isText)

end

mutual

/-- How many levels of elements there are, from the node on. -/
def levels : Node → Nat
  | .element _ _ children => levelsAll children + 1
  | _ => 0

def levelsAll : List Node → Nat
  | [] => 0
  | n :: rest => max (levels n) (levelsAll rest)

end

theorem isWritableText_iff {content : List Char} : isWritableText content = true ↔
    content.all isAsciiBlank = false ∧ '<' ∉ content ∧ '&' ∉ content ∧ occurs cdataClose content = false := by
  simp [isWritableText, and_assoc]

theorem isWritableComment_iff {content : List Char} : isWritableComment content = true ↔
    '<' ∉ content ∧ '&' ∉ content ∧ occurs commentClose content = false := by
  simp [isWritableComment, and_assoc]

theorem isWritableContent_iff {tag : String} {content : List Char} : isWritableContent tag content = true ↔
    content ≠ [] ∧ occurs cdataClose content = false ∧ textBefore? (closesTag tag) content = none ∧
      startsWith cdataOpen (trimBoth isBlank content) = false := by
  simp [isWritableContent, and_assoc]

/-- The forms of a writable element. -/
theorem isWritable_element {tag : String} {a : Attributes} {children : List Node}
    (h : isWritable (.element tag a children) = true) :
    isName tag = true ∧ areWritableAttributes a = true ∧
      (isEndingTag tag = true ∧ (children = [] ∨
          ∃ content, children = [.cdata content] ∧ isWritableContent tag content.toList = true) ∨
        isEndingTag tag = false ∧ areWritable children = true) := by
  rw [isWritable, Bool.and_eq_true, Bool.and_eq_true] at h
  obtain ⟨⟨ht, ha⟩, h⟩ := h
  refine ⟨ht, ha, ?_⟩
  split at h
  · rename_i hn
    refine .inl ⟨hn, ?_⟩
    unfold isWritableBlock at h
    split at h
    · exact .inl rfl
    · exact .inr ⟨_, rfl, h⟩
    · cases h
  · rename_i hn
    exact .inr ⟨by simpa using hn, h⟩

theorem areWritable_cons {n : Node} {rest : List Node} : areWritable (n :: rest) = true ↔
    isWritable n = true ∧ areWritable rest = true ∧ (isText n = true → rest.head?.any isText = false) := by
  rw [areWritable]
  cases isText n <;> simp [and_assoc]

/-! ## Strict markup -/

def attributeText (e : String × String) : List Char :=
  ' ' :: (e.1.toList ++ ('=' :: '"' :: (e.2.toList.flatMap attributeChar ++ ['"'])))

/-- An attribute with `raw` between its quotes, and the space before it. -/
def quotedText (name : String) (raw : List Char) : List Char :=
  ' ' :: (name.toList ++ ('=' :: '"' :: (raw ++ ['"'])))

def startText (tag : String) (a : Attributes) (close : List Char) : List Char :=
  '<' :: (tag.toList ++ (a.entries.flatMap attributeText ++ close))

/-- A start tag whose attribute values are spelled by `write`, given its end. -/
def quotedStart (write : String × String → List Char) (tag : String) (a : Attributes) (close : List Char) : List Char :=
  '<' :: (tag.toList ++ ((a.entries.flatMap fun e => quotedText e.1 (write e)) ++ close))

/-- The end of a start tag that ends its element too. -/
def emptyClose : List Char := [' ', '/', '>']

def endText (tag : String) : List Char := endTagOpen ++ (tag.toList ++ tagClose)

mutual

/-- The markup of a node, with verbatim text marked. -/
def strict : Node → List Char
  | .text content => content.toList
  | .cdata content => cdataOpen ++ (content.toList ++ cdataClose)
  | .comment content => commentOpen ++ (content.toList ++ commentClose)
  | .element tag a [] => startText tag a emptyClose
  | .element tag a (n :: rest) => startText tag a tagClose ++ ((strict n ++ strictAll rest) ++ endText tag)

def strictAll : List Node → List Char
  | [] => []
  | n :: rest => strict n ++ strictAll rest

end

/-! ## The markup of a node as characters -/

theorem toList_attributeMarkup (a : Attributes) :
    (Node.attributeMarkup a).toList = a.entries.flatMap attributeText := by
  rw [Node.attributeMarkup, String.toList_join, List.flatMap_map]
  refine congrArg (a.entries.flatMap ·) (funext fun e => ?_)
  simp [attributeText, escapeAttribute]

theorem toList_markup_nil (tag : String) (a : Attributes) :
    (Node.markup (.element tag a [])).toList = startText tag a emptyClose := by
  simp [Node.markup, startText, emptyClose, toList_attributeMarkup]

theorem toList_markup_cons (tag : String) (a : Attributes) (n : Node) (rest : List Node) :
    (Node.markup (.element tag a (n :: rest))).toList =
      startText tag a tagClose ++ ((n.markup.toList ++ (Node.markupAll rest).toList) ++ endText tag) := by
  simp [Node.markup, startText, endText, tagClose, endTagOpen, toList_attributeMarkup]

/-! ## Names -/

theorem isName_iff {s : String} : isName s = true ↔
    ∃ c r, s.toList = c :: r ∧ isNameStart c = true ∧ ∀ d ∈ r, isNameChar d = true := by
  unfold isName
  split
  · rename_i c r hs
    rw [hs, Bool.and_eq_true, List.all_eq_true]
    constructor
    · exact fun h => ⟨c, r, rfl, h.1, h.2⟩
    · rintro ⟨_, _, ⟨⟩, hc, hr⟩
      exact ⟨hc, hr⟩
  · rename_i hs
    simp [hs]

theorem isNameChar_of_isNameStart {c : Char} (h : isNameStart c = true) : isNameChar c = true := by
  simp [isNameChar, h]

theorem nameChars {s : String} (h : isName s = true) : ∀ c ∈ s.toList, isNameChar c = true := by
  obtain ⟨c, r, hs, hc, hr⟩ := isName_iff.1 h
  rw [hs]
  exact List.forall_mem_cons.2 ⟨isNameChar_of_isNameStart hc, hr⟩

/-- A name holds no marks of markup. -/
theorem mem_name {s : String} (h : isName s = true) {d : Char} (hd : d ∈ s.toList) : d ≠ '<' ∧ d ≠ '>' ∧ d ≠ '&' := by
  have hname := nameChars h d hd
  refine ⟨?_, ?_, ?_⟩
  all_goals
    rintro rfl
    exact absurd hname (by decide)

/-! ## Attributes -/

theorem attributes_iff {a : Attributes} : areWritableAttributes a = true ↔
    (a.entries.map Prod.fst).Nodup ∧
      ∀ e ∈ a.entries, isName e.1 = true ∧ ∀ c ∈ e.2.toList, c ≠ '\t' ∧ c ≠ '\n' ∧ c ≠ '\r' := by
  simp [areWritableAttributes, and_assoc]

theorem mem_attributeText {e : String × String} (h : isName e.1 = true) {d : Char} (hd : d ∈ attributeText e) :
    d ≠ '<' ∧ d ≠ '>' := by
  rw [attributeText, List.mem_cons, List.mem_append] at hd
  rcases hd with rfl | hd | hd
  · decide
  · exact ⟨(mem_name h hd).1, (mem_name h hd).2.1⟩
  · rw [List.mem_cons, List.mem_cons, List.mem_append, List.mem_singleton] at hd
    rcases hd with rfl | rfl | hd | rfl
    · decide
    · decide
    · obtain ⟨c, -, hc⟩ := List.mem_flatMap.1 hd
      exact ⟨(mem_attributeChar hc).1, (mem_attributeChar hc).2.1⟩
    · decide

/-- No mark of a tag stands inside it. -/
theorem mem_tag {tag : String} {a : Attributes} (ht : isName tag = true) (ha : areWritableAttributes a = true) {d : Char}
    (hd : d ∈ tag.toList ++ a.entries.flatMap attributeText) : d ≠ '<' ∧ d ≠ '>' := by
  rcases List.mem_append.1 hd with hd | hd
  · exact ⟨(mem_name ht hd).1, (mem_name ht hd).2.1⟩
  · obtain ⟨e, he, hd⟩ := List.mem_flatMap.1 hd
    exact mem_attributeText ((attributes_iff.1 ha).2 e he).1 hd

/-- A start tag that is not closed at once does not end in a slash. -/
theorem tag_eq_concat {tag : String} (ht : isName tag = true) (a : Attributes) (write : String × String → List Char) :
    ∃ s c, tag.toList ++ (a.entries.flatMap fun e => quotedText e.1 (write e)) = s ++ [c] ∧ c ≠ '/' := by
  rcases List.eq_nil_or_concat a.entries with he | ⟨init, e, he⟩
  · rcases List.eq_nil_or_concat tag.toList with hn | ⟨s, c, hs⟩
    · obtain ⟨c, r, hs, -⟩ := isName_iff.1 ht
      rw [hn] at hs
      cases hs
    · refine ⟨s, c, by simp [he, hs], ?_⟩
      rintro rfl
      exact absurd (nameChars ht '/' (by simp [hs])) (by decide)
  · refine ⟨tag.toList ++ ((init.flatMap fun e => quotedText e.1 (write e)) ++ ' ' :: (e.1.toList ++ ('=' :: '"' ::
      write e))), '"', ?_, by decide⟩
    rw [he]
    simp [quotedText]

/-- Behind the name of a tag comes a blank or the end of the tag. -/
theorem attributes_append_eq (a : Attributes) (write : String × String → List Char) {close : List Char}
    (hclose : close = emptyClose ∨ close = tagClose) (rest : List Char) :
    ∃ c r, (a.entries.flatMap fun e => quotedText e.1 (write e)) ++ (close ++ rest) = c :: r ∧ (c = ' ' ∨ c = '>') := by
  obtain ⟨entries⟩ := a
  cases entries with
  | nil =>
    rcases hclose with rfl | rfl
    · exact ⟨_, _, rfl, .inl rfl⟩
    · exact ⟨_, _, rfl, .inr rfl⟩
  | cons e entries => exact ⟨_, _, rfl, .inl rfl⟩

end EmailMarkup.Template
