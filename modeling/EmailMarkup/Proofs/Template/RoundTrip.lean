import EmailMarkup.Proofs.Forest.Trees
import EmailMarkup.Proofs.Template.Protect
import EmailMarkup.Proofs.Template.Reader
/-!
# Reading what was written

Reading the markup of a writable tree gives the tree back (`parse_innerMarkup`). Each token of the strict
markup is read as what it was written for, and takes some of the text, so that the length of the text is
enough fuel (`Reaches`). By induction over the tree, reading the markup of a node adds the node to the
innermost open element and leaves everything else as it was (`reaches_strict`).
-/
namespace EmailMarkup.Template

open EmailMarkup.Text

/-! ## Names and references -/

theorem readName_append {name : String} (h : isName name = true) {c : Char} (hc : isNameChar c = false) (r : List Char) :
    readName (name.toList ++ c :: r) = .ok (name, c :: r) := by
  obtain ⟨d, t, hs, hd, ht⟩ := isName_iff.1 h
  have hname : String.ofList (d :: t) = name := by rw [← hs, String.ofList_toList]
  rw [hs, List.cons_append, readName, if_pos hd, takeWhile_append_cons ht hc, dropWhile_append_cons ht hc, hname]

/-- Characters outside of references stand for themselves. -/
theorem decodeFrom_plain {t s v : List Char} (ht : '&' ∉ t) (h : decodeFrom 0 s = .ok v) : decodeFrom 0 (t ++ s) = .ok (t ++ v) := by
  induction t with
  | nil => exact h
  | cons c t ih =>
    rw [List.mem_cons, not_or] at ht
    rw [List.cons_append, decodeFrom, if_neg (Ne.symm ht.1), ih ht.2]
    rfl

/-- Text without references stands for itself. -/
theorem decode_plain {s : List Char} (h : '&' ∉ s) : decode s = .ok s := by
  simpa [decode] using decodeFrom_plain h (s := []) rfl

/-- A reference stands for the character that it names. -/
theorem decodeFrom_reference (name : List Char) {s v : List Char} {c : Char} (hend : ';' ∉ name) (hc : character name = .ok c)
    (h : decodeFrom 0 s = .ok v) : decodeFrom 0 ('&' :: (name ++ ';' :: s)) = .ok (c :: v) := by
  have hskip (t : List Char) : decodeFrom (t.length + 1) (t ++ ';' :: s) = decodeFrom 0 s := by
    induction t with
    | nil => rfl
    | cons d t ih => exact ih
  rw [decodeFrom, if_pos rfl, cut_char hend]
  simp only [hc, hskip, h]
  rfl

/-- An escaped character stands for the character. -/
theorem decodeFrom_attributeChar (c : Char) {s v : List Char} (h : decodeFrom 0 s = .ok v) :
    decodeFrom 0 (attributeChar c ++ s) = .ok (c :: v) := by
  unfold attributeChar
  split
  · exact decodeFrom_reference ['a', 'm', 'p'] (by decide) rfl h
  · exact decodeFrom_reference ['q', 'u', 'o', 't'] (by decide) rfl h
  · exact decodeFrom_reference ['#', '3', '9'] (by decide) rfl h
  · exact decodeFrom_reference ['l', 't'] (by decide) rfl h
  · exact decodeFrom_reference ['g', 't'] (by decide) rfl h
  · rename_i hamp _ _ _ _
    exact decodeFrom_plain (t := [c]) (by simpa using Ne.symm hamp) h

theorem decode_escaped (v : List Char) : decode (v.flatMap attributeChar) = .ok v := by
  induction v with
  | nil => rfl
  | cons c v ih => exact decodeFrom_attributeChar c ih

/-! ## Attributes -/

theorem normalBlank_of_ne {c : Char} (h : c ≠ '\t' ∧ c ≠ '\n' ∧ c ≠ '\r') : normalBlank c = c := by
  simp [normalBlank, h.1, h.2.1, h.2.2]

/-- Between double quotes, `raw` is read as `value`. -/
structure Spells (raw : List Char) (value : String) : Prop where
  no_quote : '"' ∉ raw
  no_angle : '<' ∉ raw
  decodes : decode raw = .ok value.toList
  only_spaces : ∀ c ∈ value.toList, c ≠ '\t' ∧ c ≠ '\n' ∧ c ≠ '\r'

theorem spells_escaped {value : String} (h : ∀ c ∈ value.toList, c ≠ '\t' ∧ c ≠ '\n' ∧ c ≠ '\r') :
    Spells (value.toList.flatMap attributeChar) value where
  no_quote hm := by
    obtain ⟨c, -, hc⟩ := List.mem_flatMap.1 hm
    exact (mem_attributeChar hc).2.2 rfl
  no_angle hm := by
    obtain ⟨c, -, hc⟩ := List.mem_flatMap.1 hm
    exact (mem_attributeChar hc).1 rfl
  decodes := decode_escaped value.toList
  only_spaces := h

theorem readValue_append {raw : List Char} {value : String} (h : Spells raw value) (r : List Char) :
    readValue ('"' :: (raw ++ '"' :: r)) = .ok (value, r) := by
  have hnormal : value.toList.map normalBlank = value.toList := by
    rw [List.map_congr_left fun c hc => normalBlank_of_ne (h.only_spaces c hc), List.map_id']
  have hvalue (inside : List Char) : attributeValue raw inside = .ok value := by
    rw [attributeValue, cut_char_eq_none h.no_angle]
    simp only [h.decodes, hnormal, String.ofList_toList]
  rw [readValue, if_pos (by decide), readUntil, cut_char h.no_quote]
  show (do return (← attributeValue _ _, r)) = _
  rw [hvalue]
  rfl

theorem readChar_cons (c : Char) (s : List Char) : readChar c (c :: s) = .ok s := if_pos rfl

theorem skipBlank_of_not_blank {c : Char} (h : isMarkupBlank c = false) (r : List Char) : skipBlank (c :: r) = c :: r := by
  simp [skipBlank, h]

theorem readAttribute_append {name value : String} {raw : List Char} (hn : isName name = true) (hv : Spells raw value)
    (r : List Char) : readAttribute (name.toList ++ ('=' :: '"' :: (raw ++ ['"'])) ++ r) = .ok ((name, value), r) := by
  have hsplit : name.toList ++ ('=' :: '"' :: (raw ++ ['"'])) ++ r = name.toList ++ '=' :: ('"' :: (raw ++ '"' :: r)) := by
    simp
  have hequals (s : List Char) : readChar '=' (skipBlank ('=' :: s)) = .ok s := by
    rw [skipBlank_of_not_blank (by decide), readChar_cons]
  have hvalue : readValue (skipBlank ('"' :: (raw ++ '"' :: r))) = .ok (value, r) := by
    rw [skipBlank_of_not_blank (by decide), readValue_append hv]
  rw [hsplit]
  refine bind_eq_ok.2 ⟨_, readName_append hn (by decide) _, ?_⟩
  refine bind_eq_ok.2 ⟨_, hequals _, ?_⟩
  exact bind_eq_ok.2 ⟨_, hvalue, rfl⟩

theorem setIn_of_not_mem {name : String} (value : String) :
    ∀ {l : List (String × String)}, name ∉ l.map Prod.fst → Attributes.setIn name value l = l ++ [(name, value)]
  | [], _ => rfl
  | (n, v) :: rest, h => by
    rw [List.map_cons, List.mem_cons, not_or] at h
    rw [Attributes.setIn, if_neg (Ne.symm h.1), setIn_of_not_mem value h.2]
    rfl

theorem contains_of_not_mem {name : String} {a : Attributes} (h : name ∉ a.entries.map Prod.fst) :
    a.contains name = false := by
  rw [Attributes.contains, List.any_eq_false]
  intro e he heq
  exact h (List.mem_map.2 ⟨e, he, by simpa using heq⟩)

theorem isMarkupBlank_of_isNameStart {c : Char} (h : isNameStart c = true) : isMarkupBlank c = false := by
  rw [Bool.eq_false_iff]
  intro hb
  simp only [isMarkupBlank, Bool.or_eq_true, beq_iff_eq] at hb
  rcases hb with ((rfl | rfl) | rfl) | rfl <;> exact absurd h (by decide)

/-- Reading one more attribute. -/
theorem readAttributes_cons {name value : String} {raw : List Char} (hn : isName name = true) (hv : Spells raw value)
    {a : Attributes} (hnew : name ∉ a.entries.map Prod.fst) (tag : String) (fuel : Nat) (r : List Char) :
    readAttributes tag (fuel + 1) a (quotedText name raw ++ r) = readAttributes tag fuel ⟨a.entries ++ [(name, value)]⟩ r := by
  obtain ⟨c, t, hname, hc, -⟩ := isName_iff.1 hn
  have hread := readAttribute_append hn hv r
  generalize hs : name.toList ++ ('=' :: '"' :: (raw ++ ['"'])) ++ r = s at hread
  have hs' : ∃ t', s = c :: t' := ⟨_, by rw [← hs, hname]; rfl⟩
  have htext : quotedText name raw ++ r = ' ' :: s := by rw [← hs, quotedText]; rfl
  obtain ⟨t', hs'⟩ := hs'
  have hskip : skipBlank (' ' :: s) = s := by
    have hspace : skipBlank (' ' :: s) = skipBlank s := by simp [skipBlank, isMarkupBlank]
    rw [hspace, hs', skipBlank_of_not_blank (isMarkupBlank_of_isNameStart hc)]
  have hinsert : a.insert name value = ⟨a.entries ++ [(name, value)]⟩ := by
    rw [Attributes.insert, setIn_of_not_mem value hnew]
  rw [htext, readAttributes, hskip]
  split
  · obtain rfl : '/' = c := (List.cons.inj hs').1
    exact absurd hc (by decide)
  · obtain rfl : '>' = c := (List.cons.inj hs').1
    exact absurd hc (by decide)
  · have hlen : (s.isEmpty || s.length == (' ' :: s).length) = false := by simp [hs']
    rw [hlen, hread]
    show (if a.contains name then _ else readAttributes tag fuel (a.insert name value) r) = _
    rw [contains_of_not_mem hnew, hinsert]
    rfl

/-- Reading the attributes of a start tag, one after the other, where `write` spells the values. -/
theorem readAttributes_append {tag : String} {close : List Char} (hclose : close = emptyClose ∨ close = tagClose)
    (rest : List Char) (write : String × String → List Char) : ∀ (entries before : List (String × String)) (fuel : Nat),
      ((before ++ entries).map Prod.fst).Nodup →
      (∀ e ∈ entries, isName e.1 = true ∧ Spells (write e) e.2) →
      ((entries.flatMap fun e => quotedText e.1 (write e)) ++ (close ++ rest)).length ≤ fuel →
      readAttributes tag fuel ⟨before⟩ ((entries.flatMap fun e => quotedText e.1 (write e)) ++ (close ++ rest)) =
        .ok (⟨tag, ⟨before ++ entries⟩, close == emptyClose⟩, rest)
  | [], before, fuel, _, _, hf => by
    rcases hclose with rfl | rfl
    · obtain ⟨fuel, rfl⟩ := Nat.exists_eq_add_one_of_ne_zero (n := fuel) (by simp [emptyClose] at hf; omega)
      rw [List.append_nil]
      rfl
    · obtain ⟨fuel, rfl⟩ := Nat.exists_eq_add_one_of_ne_zero (n := fuel) (by simp [tagClose] at hf; omega)
      rw [List.append_nil]
      rfl
  | e :: entries, before, fuel, hd, he, hf => by
    obtain ⟨hn, hv⟩ := he e (by simp)
    rw [List.append_cons] at hd
    have hnew : e.1 ∉ before.map Prod.fst := by
      rw [List.map_append, List.map_append, List.nodup_append, List.nodup_append] at hd
      exact fun hm => hd.1.2.2 e.1 hm e.1 (by simp) rfl
    rw [List.flatMap_cons, List.append_assoc] at hf ⊢
    obtain ⟨fuel, rfl⟩ := Nat.exists_eq_add_one_of_ne_zero (n := fuel) (by simp [quotedText] at hf; omega)
    rw [readAttributes_cons hn hv hnew,
      readAttributes_append hclose rest write entries _ fuel hd fun e' he' => he e' (by simp [he'])]
    · simp
    · simp only [List.length_append, quotedText, List.length_cons] at hf ⊢
      omega

/-! ## Tags -/

theorem isNameChar_of_close {c : Char} (h : c = ' ' ∨ c = '>') : isNameChar c = false := by
  rcases h with rfl | rfl <;> decide

/-- A start tag is read as what it was written for. -/
theorem readStartTag_quotedStart {tag : String} {a : Attributes} (ht : isName tag = true)
    (hd : (a.entries.map Prod.fst).Nodup) {write : String × String → List Char}
    (he : ∀ e ∈ a.entries, isName e.1 = true ∧ Spells (write e) e.2) {close : List Char}
    (hclose : close = emptyClose ∨ close = tagClose) (rest : List Char) :
    readStartTag (quotedStart write tag a close ++ rest) = .ok (⟨tag, a, close == emptyClose⟩, rest) := by
  obtain ⟨c, r, hr, hc⟩ := attributes_append_eq a write hclose rest
  have hread : readAttributes tag _ ⟨[]⟩ _ = _ :=
    readAttributes_append hclose rest write a.entries [] _ hd he (Nat.le_refl _)
  have hname := readName_append ht (isNameChar_of_close hc) r
  rw [← hr] at hname
  rw [quotedStart_append]
  refine bind_eq_ok.2 ⟨_, readChar_cons '<' _, ?_⟩
  exact bind_eq_ok.2 ⟨_, hname, hread⟩

theorem readEndTag_append {tag : String} (ht : isName tag = true) (rest : List Char) :
    readEndTag (tag.toList ++ (tagClose ++ rest)) = .ok (tag, rest) := by
  have hclose : readChar '>' (skipBlank ('>' :: rest)) = .ok rest := by
    rw [skipBlank_of_not_blank (by decide), readChar_cons]
  refine bind_eq_ok.2 ⟨_, readName_append ht (by decide) rest, ?_⟩
  exact bind_eq_ok.2 ⟨_, hclose, rfl⟩

/-! ## Tokens -/

theorem opensElement_quotedStart {tag : String} (ht : isName tag = true) (write : String × String → List Char)
    (a : Attributes) (close rest : List Char) : opensElement (quotedStart write tag a close ++ rest) = true := by
  obtain ⟨c, r, hc, hstart, -⟩ := isName_iff.1 ht
  rw [quotedStart_append, hc]
  simp only [List.cons_append, opensElement, List.head?_cons, Bool.and_eq_true, bne_iff_ne, ne_eq, Option.some.injEq]
  refine ⟨⟨?_, ?_⟩, ?_⟩
  all_goals
    rintro rfl
    exact absurd hstart (by decide)

/-- A start tag begins with no other mark. -/
theorem strip?_of_opensElement {s : List Char} (h : opensElement s = true) {c : Char} (hc : c = '/' ∨ c = '!' ∨ c = '?')
    {ps : List Char} : strip? ('<' :: c :: ps) s = none := by
  unfold opensElement at h
  split at h
  · rename_i r
    simp only [Bool.and_eq_true, bne_iff_ne, ne_eq] at h
    cases r with
    | nil => rfl
    | cons d r =>
      have hne : c ≠ d := by
        rintro rfl
        rcases hc with rfl | rfl | rfl <;> simp at h
      rw [strip?, if_pos rfl, strip?_cons_of_ne hne]
  · cases h

/-- Where an element begins, a start tag is read. -/
theorem readToken_of_opensElement {s : List Char} (hopen : opensElement s = true) :
    readToken s = readStartTag s >>= fun p => return (.start p.1, p.2) := by
  have hhead : s.head? = some '<' := by
    unfold opensElement at hopen
    split at hopen
    · rfl
    · cases hopen
  simp only [readToken, if_pos hhead, readMarkup, endTagOpen, commentOpen, cdataOpen, startsWith, instructionOpen,
    declarationOpen, strip?_of_opensElement hopen (.inl rfl), strip?_of_opensElement hopen (.inr (.inl rfl)),
    strip?_of_opensElement hopen (.inr (.inr rfl)), Option.isSome_none, Bool.false_eq_true, if_false]

theorem readToken_of_readStartTag {s rest : List Char} {t : StartTag} (hopen : opensElement s = true)
    (h : readStartTag s = .ok (t, rest)) : readToken s = .ok (.start t, rest) := by
  rw [readToken_of_opensElement hopen, h]
  rfl

theorem readToken_quotedStart {tag : String} {a : Attributes} (ht : isName tag = true)
    (hd : (a.entries.map Prod.fst).Nodup) {write : String × String → List Char}
    (he : ∀ e ∈ a.entries, isName e.1 = true ∧ Spells (write e) e.2) {close : List Char}
    (hclose : close = emptyClose ∨ close = tagClose) (rest : List Char) :
    readToken (quotedStart write tag a close ++ rest) = .ok (.start ⟨tag, a, close == emptyClose⟩, rest) :=
  readToken_of_readStartTag (opensElement_quotedStart ht write a close rest) (readStartTag_quotedStart ht hd he hclose rest)

/-- The values of writable attributes are spelled by escaping them. -/
theorem spells_attributes {a : Attributes} (ha : areWritableAttributes a = true) :
    ∀ e ∈ a.entries, isName e.1 = true ∧ Spells (e.2.toList.flatMap attributeChar) e.2 := by
  intro e hm
  obtain ⟨hn, hv⟩ := (attributes_iff.1 ha).2 e hm
  exact ⟨hn, spells_escaped hv⟩

theorem readToken_startText {tag : String} {a : Attributes} (ht : isName tag = true) (ha : areWritableAttributes a = true)
    {close : List Char} (hclose : close = emptyClose ∨ close = tagClose) (rest : List Char) :
    readToken (startText tag a close ++ rest) = .ok (.start ⟨tag, a, close == emptyClose⟩, rest) :=
  readToken_quotedStart ht (attributes_iff.1 ha).1 (spells_attributes ha) hclose rest

theorem readToken_endText {tag : String} (ht : isName tag = true) (rest : List Char) :
    readToken (endText tag ++ rest) = .ok (.stop tag, rest) := by
  have hsplit : endText tag ++ rest = endTagOpen ++ (tag.toList ++ (tagClose ++ rest)) := by simp [endText]
  have hhead : (endTagOpen ++ (tag.toList ++ (tagClose ++ rest))).head? = some '<' := rfl
  rw [hsplit, readToken, if_pos hhead, readMarkup, strip?_append]
  simp only [readEndTag_append ht]
  rfl

theorem readToken_comment {content : List Char} (h : occurs commentClose content = false) (rest : List Char) :
    readToken (commentOpen ++ (content ++ commentClose) ++ rest) = .ok (.comment (String.ofList content), rest) := by
  have hcut : cut commentClose (content ++ (commentClose ++ rest)) = some (content, rest) := cut_mark (by decide) h rest
  have hhead : (commentOpen ++ (content ++ (commentClose ++ rest))).head? = some '<' := rfl
  rw [List.append_assoc, List.append_assoc, readToken, if_pos hhead, readMarkup,
    show strip? endTagOpen (commentOpen ++ (content ++ (commentClose ++ rest))) = none from rfl, strip?_append]
  simp only [readUntil, hcut]
  rfl

theorem readToken_cdata {content : List Char} (h : occurs cdataClose content = false) (rest : List Char) :
    readToken (cdataOpen ++ (content ++ cdataClose) ++ rest) = .ok (.cdata (String.ofList content), rest) := by
  have hcut : cut cdataClose (content ++ (cdataClose ++ rest)) = some (content, rest) := cut_mark (by decide) h rest
  have hhead : (cdataOpen ++ (content ++ (cdataClose ++ rest))).head? = some '<' := rfl
  rw [List.append_assoc, List.append_assoc, readToken, if_pos hhead, readMarkup,
    show strip? endTagOpen (cdataOpen ++ (content ++ (cdataClose ++ rest))) = none from rfl,
    show strip? commentOpen (cdataOpen ++ (content ++ (cdataClose ++ rest))) = none from rfl, strip?_append]
  simp only [readUntil, hcut]
  rfl

/-- Text reaches to the next tag. -/
theorem readToken_text {content rest : List Char} (h : isWritableText content = true) :
    readToken (content ++ '<' :: rest) = .ok (.text (String.ofList content), '<' :: rest) := by
  obtain ⟨hblank, hlt, hamp, hmark⟩ := isWritableText_iff.1 h
  have hplain : ∀ c ∈ content, (c != '<') = true := fun c hc => by
    simpa using fun he : c = '<' => hlt (he ▸ hc)
  have hhead : (content ++ '<' :: rest).head? ≠ some '<' := by
    cases content with
    | nil => cases hblank
    | cons c s => simpa using fun he : c = '<' => hlt (by simp [he])
  have hcut : cut cdataClose content = none := by simpa [occurs] using hmark
  rw [readToken, if_neg hhead, readText, takeWhile_append_cons hplain (by decide), dropWhile_append_cons hplain (by decide)]
  simp only [hcut, decode_plain hamp]

/-! ## Content -/

/-- With fuel for the text that is left, reading goes on from one state to another, with fuel for the text
that is left there. -/
def Reaches (maxDepth : Nat) (top : Open) (outer : List Open) (s : List Char) (top' : Open) (outer' : List Open)
    (s' : List Char) : Prop :=
  ∀ fuel, s.length ≤ fuel → ∃ fuel', s'.length ≤ fuel' ∧
    readContent maxDepth fuel top outer s = readContent maxDepth fuel' top' outer' s'

namespace Reaches

variable {maxDepth : Nat} {top top' top'' : Open} {outer outer' outer'' : List Open} {s s' s'' : List Char}

theorem refl : Reaches maxDepth top outer s top outer s := fun fuel hf => ⟨fuel, hf, rfl⟩

theorem trans (h : Reaches maxDepth top outer s top' outer' s') (h' : Reaches maxDepth top' outer' s' top'' outer'' s'') :
    Reaches maxDepth top outer s top'' outer'' s'' := by
  intro fuel hf
  obtain ⟨fuel', hf', heq⟩ := h fuel hf
  obtain ⟨fuel'', hf'', heq'⟩ := h' fuel' hf'
  exact ⟨fuel'', hf'', heq.trans heq'⟩

/-- One token, with one unit of fuel less for what is left. -/
theorem step (hlen : s'.length < s.length)
    (h : s ≠ [] → ∀ fuel, readContent maxDepth (fuel + 1) top outer s = readContent maxDepth fuel top' outer' s') :
    Reaches maxDepth top outer s top' outer' s' := by
  intro fuel hf
  have hne : s ≠ [] := by
    rintro rfl
    cases hlen
  cases fuel with
  | zero => omega
  | succ fuel => exact ⟨fuel, by omega, h hne fuel⟩

/-- A leaf is added to the innermost element. -/
theorem leaf {token : Token} {n : Node} (hread : readToken s = .ok (token, s')) (hleaf : token.leaf? = some n)
    (hopen : opensElement s = false) (hlen : s'.length < s.length) :
    Reaches maxDepth top outer s (top.add n) outer s' := by
  refine .step hlen fun hne fuel => ?_
  rw [readContent, hopen, hread]
  · cases token with
    | start t => cases hleaf
    | stop tag => cases hleaf
    | instruction => cases hleaf
    | comment content => simp [hleaf]
    | cdata content => simp [hleaf]
    | text content => simp [hleaf]
  · exact hne

/-- A start tag that ends its element adds it. -/
theorem start_closed {t : StartTag} (hread : readToken s = .ok (.start t, s')) (hclosed : t.closed = true)
    (hd : outer.length + 1 ≤ maxDepth) (hlen : s'.length < s.length) :
    Reaches maxDepth top outer s (top.add (.element t.tag t.attributes [])) outer s' := by
  refine .step hlen fun hne fuel => ?_
  rw [readContent, hread]
  · simp [hclosed, Nat.not_lt.2 hd]
  · exact hne

/-- Any other start tag opens an element. -/
theorem start_open {t : StartTag} (hread : readToken s = .ok (.start t, s')) (hopen : t.closed = false)
    (hd : outer.length + 1 ≤ maxDepth) (hlen : s'.length < s.length) :
    Reaches maxDepth top outer s ⟨t.tag, t.attributes, []⟩ (top :: outer) s' := by
  refine .step hlen fun hne fuel => ?_
  rw [readContent, hread]
  · simp [hopen, Nat.not_lt.2 hd]
  · exact hne

/-- An end tag closes the innermost element. -/
theorem stop {parent : Open} (hread : readToken s = .ok (.stop top.tag, s')) (hopen : opensElement s = false)
    (hlen : s'.length < s.length) :
    Reaches maxDepth top (parent :: outer) s (parent.add top.node) outer s' := by
  refine .step hlen fun hne fuel => ?_
  rw [readContent, hopen, hread]
  · simp
  · exact hne

end Reaches

/-! ## Nodes -/

def Open.addAll (o : Open) (nodes : List Node) : Open := { o with before := nodes.reverse ++ o.before }

theorem Open.add_addAll (o : Open) (n : Node) (nodes : List Node) : (o.add n).addAll nodes = o.addAll (n :: nodes) := by
  simp [add, addAll]

theorem Open.node_addAll (tag : String) (a : Attributes) (nodes : List Node) :
    (Open.addAll ⟨tag, a, []⟩ nodes).node = .element tag a nodes := by
  simp [node, addAll]

/-- Anything but text begins with a mark of markup. -/
theorem head_strict {n : Node} (h : isText n = false) (rest : List Char) : (strict n ++ rest).head? = some '<' := by
  cases n with
  | text content => cases h
  | cdata content => rfl
  | comment content => rfl
  | element tag a children => cases children <;> rfl

theorem head_strictAll {nodes : List Node} (h : nodes.head?.any isText = false) {rest : List Char}
    (hrest : rest.head? = some '<') : (strictAll nodes ++ rest).head? = some '<' := by
  cases nodes with
  | nil => exact hrest
  | cons n nodes =>
    rw [strictAll, List.append_assoc]
    exact head_strict (by simpa using h) _

theorem opensElement_of_head {s : List Char} (h : s.head? ≠ some '<') : opensElement s = false := by
  unfold opensElement
  split
  · exact absurd rfl h
  · rfl

section

variable {maxDepth : Nat} {top : Open} {outer : List Open}

theorem reaches_text {content : String} (h : isWritableText content.toList = true) {rest : List Char}
    (hrest : rest.head? = some '<') :
    Reaches maxDepth top outer (content.toList ++ rest) (top.add (.text content)) outer rest := by
  obtain ⟨rest, rfl⟩ : ∃ r, rest = '<' :: r := by
    cases rest with
    | nil => cases hrest
    | cons c r => exact ⟨r, by simpa using hrest⟩
  obtain ⟨hblank, hlt, -, -⟩ := isWritableText_iff.1 h
  obtain ⟨c, s, hs⟩ : ∃ c s, content.toList = c :: s := by
    cases hs : content.toList with
    | nil => simp [hs] at hblank
    | cons c s => exact ⟨c, s, rfl⟩
  refine .leaf (readToken_text h) ?_ (opensElement_of_head ?_) ?_
  · simp only [Token.leaf?, hblank, Bool.false_eq_true, if_false, String.ofList_toList]
  · rw [hs] at hlt ⊢
    simp only [List.mem_cons, not_or] at hlt
    simpa using fun he : c = '<' => hlt.1 he.symm
  · simp only [hs, List.length_append, List.length_cons]
    omega

theorem reaches_comment {content : String} (h : isWritableComment content.toList = true) (rest : List Char) :
    Reaches maxDepth top outer (strict (.comment content) ++ rest) (top.add (.comment content)) outer rest := by
  refine .leaf (readToken_comment (isWritableComment_iff.1 h).2.2 rest) ?_ rfl (by simp [strict, commentOpen]; omega)
  rw [String.ofList_toList]
  rfl

theorem reaches_cdata {content : String} (h : occurs cdataClose content.toList = false) (rest : List Char) :
    Reaches maxDepth top outer (strict (.cdata content) ++ rest) (top.add (.cdata content)) outer rest := by
  refine .leaf (readToken_cdata h rest) ?_ rfl (by simp [strict, cdataOpen]; omega)
  rw [String.ofList_toList]
  rfl

/-- A start tag that ends its element is read as the element. -/
theorem reaches_empty {tag : String} {a : Attributes} (ht : isName tag = true) (ha : areWritableAttributes a = true)
    (hd : outer.length + 1 ≤ maxDepth) (rest : List Char) :
    Reaches maxDepth top outer (startText tag a emptyClose ++ rest) (top.add (.element tag a [])) outer rest :=
  .start_closed (readToken_startText ht ha (.inl rfl) rest) rfl hd (by simp [startText]; omega)

/-- An element is read once its content is. -/
theorem reaches_element {tag : String} {a : Attributes} (ht : isName tag = true) (hd : outer.length + 1 ≤ maxDepth)
    {opening text rest : List Char} {children : List Node} (hne : opening ≠ [])
    (hopen : ∀ rest, readToken (opening ++ rest) = .ok (.start ⟨tag, a, false⟩, rest))
    (hcontent : Reaches maxDepth ⟨tag, a, []⟩ (top :: outer) (text ++ (endText tag ++ rest))
      (Open.addAll ⟨tag, a, []⟩ children) (top :: outer) (endText tag ++ rest)) :
    Reaches maxDepth top outer (opening ++ (text ++ endText tag) ++ rest) (top.add (.element tag a children)) outer rest := by
  have hstop : Reaches maxDepth (Open.addAll ⟨tag, a, []⟩ children) (top :: outer) (endText tag ++ rest)
      (top.add (Open.addAll ⟨tag, a, []⟩ children).node) outer rest :=
    .stop (readToken_endText ht rest) rfl (by simp [endText, endTagOpen]; omega)
  have hlen := List.length_pos_iff.2 hne
  rw [Open.node_addAll] at hstop
  rw [List.append_assoc, List.append_assoc]
  exact .trans (.start_open (hopen _) rfl hd (by simp; omega)) (hcontent.trans hstop)

end

mutual

/-- A writable node is read back from its strict markup. -/
theorem reaches_strict (maxDepth : Nat) (top : Open) (outer : List Open) (rest : List Char) :
    (n : Node) → isWritable n = true → outer.length + levels n ≤ maxDepth →
    (isText n = true → rest.head? = some '<') →
    Reaches maxDepth top outer (strict n ++ rest) (top.add n) outer rest
  | .text content, hw, _, hrest => reaches_text hw (hrest rfl)
  | .comment content, hw, _, _ => reaches_comment hw rest
  | .cdata content, hw, _, _ => nomatch hw
  | .element tag a [], hw, hd, _ => by
    obtain ⟨ht, ha, -⟩ := isWritable_element hw
    rw [levels, levelsAll] at hd
    exact reaches_empty ht ha hd rest
  | .element tag a (n :: children), hw, hd, _ => by
    obtain ⟨ht, ha, ⟨-, hnil | ⟨content, hcontent, hc⟩⟩ | ⟨-, hchildren⟩⟩ := isWritable_element hw
    all_goals rw [levels] at hd
    · cases hnil
    · -- the one verbatim text of an ending tag
      cases hcontent
      refine reaches_element ht (by omega) (List.cons_ne_nil _ _) (readToken_startText ht ha (.inr rfl)) ?_
      rw [strictAll, List.append_nil]
      exact reaches_cdata (isWritableContent_iff.1 hc).2.1 _
    · refine reaches_element ht (by omega) (List.cons_ne_nil _ _) (readToken_startText ht ha (.inr rfl)) ?_
      exact reaches_strictAll maxDepth _ _ rfl (n :: children) hchildren (by simp; omega)

/-- Writable nodes are read back from their strict markup. -/
theorem reaches_strictAll (maxDepth : Nat) (top : Open) (outer : List Open) {rest : List Char}
    (hrest : rest.head? = some '<') :
    (nodes : List Node) → areWritable nodes = true → outer.length + levelsAll nodes ≤ maxDepth →
    Reaches maxDepth top outer (strictAll nodes ++ rest) (top.addAll nodes) outer rest
  | [], _, _ => .refl
  | n :: nodes, hw, hd => by
    obtain ⟨hn, hnodes, htext⟩ := areWritable_cons.1 hw
    rw [levelsAll] at hd
    rw [strictAll, List.append_assoc, ← Open.add_addAll]
    exact .trans
      (reaches_strict maxDepth top outer _ n hn (by omega) fun ht => head_strictAll (htext ht) hrest)
      (reaches_strictAll maxDepth _ outer hrest nodes hnodes (by omega))

end

/-! ## Documents -/

theorem eq_cons_of_opensElement {s : List Char} (h : opensElement s = true) : ∃ r, s = '<' :: r := by
  unfold opensElement at h
  split at h
  · exact ⟨_, rfl⟩
  · cases h

theorem skipMisc_of_opensElement {s : List Char} (h : opensElement s = true) (prolog : Bool) :
    skipMisc prolog s = .ok s := by
  obtain ⟨r, rfl⟩ := eq_cons_of_opensElement h
  have hmisc : readMisc? prolog ('<' :: r) = .ok none := by
    simp [readMisc?, startsWith, instructionOpen, commentOpen, doctypeOpen, strip?_of_opensElement h]
  rw [skipMisc, List.length_cons, skipMiscFrom, skipBlank_of_not_blank (by decide), hmisc]
  rfl

/-- A document that begins with its root element is read once the content of the root is. -/
theorem readDocument_of_root {maxDepth : Nat} {s text : List Char} {a : Attributes} {closed : Bool} {n : Node}
    (hopen : opensElement s = true) (hroot : readStartTag s = .ok (⟨rootTag, a, closed⟩, text))
    (hread : (if closed then .ok (Open.node ⟨rootTag, a, []⟩, text)
      else readContent maxDepth text.length ⟨rootTag, a, []⟩ [] text) = .ok (n, [])) :
    readDocument maxDepth s = .ok n := by
  have hend : startsWith endTagOpen s = false := by
    simp [startsWith, endTagOpen, strip?_of_opensElement hopen]
  obtain ⟨r, rfl⟩ := eq_cons_of_opensElement hopen
  refine bind_eq_ok.2 ⟨_, skipMisc_of_opensElement hopen true, ?_⟩
  rw [if_neg (by simp), if_neg (by simp [hend])]
  refine bind_eq_ok.2 ⟨_, hroot, ?_⟩
  dsimp only
  rw [if_neg (by simp)]
  cases closed with
  | true => exact bind_eq_ok.2 ⟨_, hread, rfl⟩
  | false => exact bind_eq_ok.2 ⟨_, hread, rfl⟩

/-- The end tag of the outermost element ends the content. -/
theorem readContent_endText (maxDepth : Nat) {fuel : Nat} (top : Open) (ht : isName top.tag = true)
    (hf : (endText top.tag).length ≤ fuel) :
    readContent maxDepth fuel top [] (endText top.tag) = .ok (top.node, []) := by
  have hread : readToken (endText top.tag) = .ok (.stop top.tag, []) := by simpa using readToken_endText ht []
  have hopen : opensElement (endText top.tag) = false := rfl
  obtain ⟨fuel, rfl⟩ := Nat.exists_eq_add_one_of_ne_zero (n := fuel) (by rintro rfl; cases hf)
  rw [readContent, hopen, hread]
  · simp
  · exact fun h => nomatch h

theorem readDocument_strict {maxDepth : Nat} {a : Attributes} {children : List Node}
    (hw : isWritable (.element rootTag a children) = true) (hd : levelsAll children ≤ maxDepth) :
    readDocument maxDepth (strict (.element rootTag a children)) = .ok (.element rootTag a children) := by
  obtain ⟨ht, ha, ⟨hn, -⟩ | ⟨-, hchildren⟩⟩ := isWritable_element hw
  · exact absurd hn (by decide)
  · obtain ⟨hnames, -⟩ := attributes_iff.1 ha
    have hspells := spells_attributes ha
    cases children with
    | nil =>
      have hroot := readStartTag_quotedStart ht hnames hspells (.inl rfl) []
      have hopen := opensElement_quotedStart ht (fun e => e.2.toList.flatMap attributeChar) a emptyClose []
      rw [List.append_nil] at hroot hopen
      exact readDocument_of_root hopen hroot rfl
    | cons n children =>
      have hreach : Reaches maxDepth ⟨rootTag, a, []⟩ [] (strictAll (n :: children) ++ endText rootTag) _ [] _ :=
        reaches_strictAll maxDepth _ [] rfl (n :: children) hchildren (by simpa using hd)
      obtain ⟨fuel, hf, heq⟩ := hreach _ (Nat.le_refl _)
      refine readDocument_of_root (opensElement_quotedStart ht _ a _ _)
        (readStartTag_quotedStart ht hnames hspells (.inr rfl) _) ?_
      have hend := readContent_endText maxDepth (Open.addAll ⟨rootTag, a, []⟩ (n :: children)) ht hf
      rw [Open.node_addAll] at hend
      exact heq.trans hend

/-! ## Templates -/

theorem markup_not_blank (tag : String) (a : Attributes) (children : List Node) :
    (Node.markup (.element tag a children)).toList.all isBlank = false := by
  cases children with
  | nil => rw [toList_markup_nil]; rfl
  | cons n rest => rw [toList_markup_cons]; rfl

theorem ofChars_markup {maxDepth : Nat} {t : Template} (hw : isWritable t.root = true)
    (hd : levelsAll t.children ≤ maxDepth) : ofChars maxDepth t.root.markup.toList = .ok t := by
  have hblank : t.root.markup.toList.all isBlank = false := markup_not_blank _ _ _
  have hread : readDocument maxDepth (strict t.root) = .ok t.root := readDocument_strict hw hd
  rw [ofChars, hblank, if_neg Bool.false_ne_true, protect_markup hw, ofProtected, hread]
  rfl

/-- Reading undoes writing: the markup of a document whose one tree is a writable template, of no more
levels than allowed, is read as that template. -/
theorem parse_innerMarkup (maxDepth : Nat) (t : Template) (hw : isWritable t.root = true)
    (hd : levelsAll t.children ≤ maxDepth) (f : Forest) (hf : f.IsDocument t.root) :
    parse maxDepth (f.innerMarkup Forest.root) = .ok t := by
  rw [parse, hf.innerMarkup_root]
  exact ofChars_markup hw hd

def letter : Template where
  attributes := ⟨[("lang", "en"), ("data-note", "a & b < c > \"d\" 'e' &nbsp;")]⟩
  children :=
    [.element headTag .empty [.element "mj-title" .empty [.text "Spring > winter"]],
      .comment " body -- follows ",
      .element bodyTag ⟨[("width", "600px")]⟩
        [.element "mj-section" .empty [],
          .element "mj-text" ⟨[("color", "red")]⟩ [.cdata "1 <b>&nbsp;</b> ]] </mj-button>"],
          .text " and more ",
          .element "mj-raw" .empty []]]

theorem parse_innerMarkup_letter : isWritable letter.root = true ∧ levelsAll letter.children ≤ 2 ∧
    parse 2 ((Forest.ofNode letter.root).1.innerMarkup Forest.root) = .ok letter := by
  have hw : isWritable letter.root = true := by decide +kernel
  have hd : levelsAll letter.children ≤ 2 := by decide +kernel
  exact ⟨hw, hd, parse_innerMarkup 2 letter hw hd _ (Forest.ofNode_isDocument letter.root)⟩

end EmailMarkup.Template
