import EmailMarkup.Proofs.Template.RoundTrip
/-!
# The pieces that readers take

Every reader takes a piece off the front of the text. It would take the same piece, and for the same thing, in front of
any other text with the same first character (`Takes`). What a token is made of has `<` only in front, or ends in one of
the end marks that the reader looks for (`readToken_takes`), so that no token reaches across a text with `<` in front and
without these marks (`readToken_before`).
-/
namespace EmailMarkup.Template

open EmailMarkup.Text

/-- `read` takes `piece` for `a` in front of `rest`, and in front of every text with the same first character. -/
structure Takes {α : Type} (read : List Char → Except Stop (α × List Char)) (piece : List Char) (a : α)
    (rest : List Char) : Prop where
  ne_nil : piece ≠ []
  read_append : ∀ rest', rest'.head? = rest.head? → read (piece ++ rest') = .ok (a, rest')

/-! ## Names and values -/

theorem not_of_head?_dropWhile {p : Char → Bool} {s : List Char} : ∀ c ∈ (s.dropWhile p).head?, p c = false := by
  intro c hc
  have hnot := List.head?_dropWhile_not p s
  rw [Option.mem_def.1 hc] at hnot
  simpa using hnot

theorem readName_takes {s rest : List Char} {name : String} (h : readName s = .ok (name, rest)) :
    ∃ c r, s = c :: r ++ rest ∧ isNameStart c = true ∧ '<' ∉ c :: r ∧ Takes readName (c :: r) name rest := by
  unfold readName at h
  split at h
  · rename_i c r
    split at h
    · rename_i hc
      obtain ⟨rfl, rfl⟩ := Prod.mk.inj (Except.ok.inj h)
      have hchars : ∀ d ∈ r.takeWhile isNameChar, isNameChar d = true := List.all_eq_true.1 List.all_takeWhile
      refine ⟨c, r.takeWhile isNameChar, by simp, hc, ?_, by simp, fun rest' hrest => ?_⟩
      · intro hmem
        rcases List.mem_cons.1 hmem with rfl | hmem
        · exact absurd hc (by decide)
        · exact absurd (hchars _ hmem) (by decide)
      · have hstop : ∀ d ∈ rest'.head?, isNameChar d = false := by
          rw [hrest]
          exact not_of_head?_dropWhile
        obtain ⟨htake, hdrop⟩ := span_append hchars hstop
        rw [List.cons_append, readName, if_pos hc, htake, hdrop]
    · cases h
  · cases h

theorem readChar_eq_ok {c : Char} {s r : List Char} : readChar c s = .ok r ↔ s = c :: r := by
  cases s with
  | nil => simp [readChar]
  | cons d s =>
    by_cases hd : d = c
    · simp [readChar, hd]
    · simp [readChar, hd]

/-- The blanks at the front, and what follows them. -/
theorem exists_blanks (s : List Char) : ∃ blanks, s = blanks ++ skipBlank s ∧ ∀ c ∈ blanks, isMarkupBlank c = true :=
  ⟨s.takeWhile isMarkupBlank, by simp [skipBlank], List.all_eq_true.1 List.all_takeWhile⟩

theorem skipBlank_append {blanks : List Char} (h : ∀ c ∈ blanks, isMarkupBlank c = true) {c : Char}
    (hc : isMarkupBlank c = false) (r : List Char) : skipBlank (blanks ++ c :: r) = c :: r :=
  dropWhile_append_cons h hc r

theorem not_mem_blanks {blanks : List Char} (h : ∀ c ∈ blanks, isMarkupBlank c = true) : '<' ∉ blanks :=
  fun hm => absurd (h _ hm) (by decide)

theorem readUntil_eq_ok {close : List Char} {construct : Construct} {s content rest : List Char} :
    readUntil close construct s = .ok (content, rest) ↔ cut close s = some (content, rest) := by
  unfold readUntil
  cases cut close s <;> simp

/-- The value between the quotes does not depend on where faults would be reported. -/
theorem attributeValue_eq_ok {raw inside : List Char} {value : String} (h : attributeValue raw inside = .ok value) :
    '<' ∉ raw ∧ ∀ inside', attributeValue raw inside' = .ok value := by
  unfold attributeValue at h ⊢
  cases hcut : cut ['<'] raw with
  | some p => simp [hcut] at h
  | none =>
    refine ⟨fun hm => ?_, fun inside' => ?_⟩
    · obtain ⟨before, after, rfl⟩ := List.append_of_mem hm
      have hnone := cutBy_eq_none_iff.1 hcut ('<' :: after) ⟨before, rfl⟩
      exact absurd hnone (by simp [strip?])
    · cases hdecode : decode raw with
      | error what => simp [hcut, hdecode] at h
      | ok v => simpa [hcut, hdecode] using h

theorem readValue_takes {s rest : List Char} {value : String} (h : readValue s = .ok (value, rest)) :
    ∃ q r, s = q :: r ++ rest ∧ (q = '"' ∨ q = '\'') ∧ '<' ∉ q :: r ∧
      ∀ rest', readValue (q :: r ++ rest') = .ok (value, rest') := by
  unfold readValue at h
  split at h
  · rename_i q r
    split at h
    · rename_i hq
      obtain ⟨⟨raw, rest'⟩, huntil, h⟩ := bind_eq_ok.1 h
      obtain ⟨v, hvalue, h⟩ := bind_eq_ok.1 h
      obtain ⟨rfl, rfl⟩ := Prod.mk.inj (Except.ok.inj h)
      have hcut := readUntil_eq_ok.1 huntil
      obtain ⟨hangle, hany⟩ := attributeValue_eq_ok hvalue
      have hquote : q = '"' ∨ q = '\'' := by simpa using hq
      refine ⟨q, raw ++ [q], by simp [cut_eq_append hcut], hquote, ?_, fun rest' => ?_⟩
      · rcases hquote with rfl | rfl <;> simpa using hangle
      · have hcut' := cut_append_right hcut rest'
        rw [List.cons_append, readValue, if_pos hq]
        refine bind_eq_ok.2 ⟨(raw, rest'), readUntil_eq_ok.2 (by simpa using hcut'), ?_⟩
        exact bind_eq_ok.2 ⟨_, hany _, rfl⟩
    · cases h
  · cases h

/-! ## Tags -/

theorem readAttribute_takes {s rest : List Char} {e : String × String} (h : readAttribute s = .ok (e, rest)) :
    ∃ c r, s = c :: r ++ rest ∧ isNameStart c = true ∧ '<' ∉ c :: r ∧
      ∀ rest', readAttribute (c :: r ++ rest') = .ok (e, rest') := by
  obtain ⟨⟨name, r₁⟩, hname, h⟩ := bind_eq_ok.1 h
  obtain ⟨r₂, hequals, h⟩ := bind_eq_ok.1 h
  obtain ⟨⟨value, r₃⟩, hvalue, h⟩ := bind_eq_ok.1 h
  obtain ⟨rfl, rfl⟩ := Prod.mk.inj (Except.ok.inj h)
  obtain ⟨c, r, rfl, hstart, hplain, -, hread⟩ := readName_takes hname
  obtain ⟨blanks, hr₁, hblanks⟩ := exists_blanks r₁
  obtain ⟨blanks', hr₂, hblanks'⟩ := exists_blanks r₂
  obtain ⟨q, v, hv, hq, hplain', hread'⟩ := readValue_takes hvalue
  rw [readChar_eq_ok.1 hequals] at hr₁
  rw [hv] at hr₂
  have hquote : isMarkupBlank q = false := by rcases hq with rfl | rfl <;> decide
  refine ⟨c, r ++ (blanks ++ '=' :: (blanks' ++ q :: v)), by simp [hr₁, hr₂], hstart, ?_, fun rest' => ?_⟩
  · simp only [List.mem_cons, List.mem_append, not_or] at hplain hplain' ⊢
    exact ⟨hplain.1, hplain.2, not_mem_blanks hblanks, by decide, not_mem_blanks hblanks', hplain'⟩
  · have hsplit : c :: (r ++ (blanks ++ '=' :: (blanks' ++ q :: v))) ++ rest' =
        c :: r ++ (blanks ++ '=' :: (blanks' ++ (q :: v ++ rest'))) := by simp
    have hhead : (blanks ++ '=' :: (blanks' ++ (q :: v ++ rest'))).head? = r₁.head? := by
      rw [hr₁]
      cases blanks <;> rfl
    rw [hsplit]
    refine bind_eq_ok.2 ⟨_, hread _ hhead, bind_eq_ok.2 ⟨_, readChar_eq_ok.2 (skipBlank_append hblanks (by decide) _), ?_⟩⟩
    refine bind_eq_ok.2 ⟨(value, rest'), ?_, rfl⟩
    rw [List.cons_append, skipBlank_append hblanks' hquote, ← List.cons_append, hread']

/-- What can stand at the front of the rest of a start tag. -/
theorem readAttributes_cases {tag : String} {fuel : Nat} {a : Attributes} {s rest : List Char} {t : StartTag}
    (h : readAttributes tag (fuel + 1) a s = .ok (t, rest)) :
    (skipBlank s = '/' :: '>' :: rest ∧ t = ⟨tag, a, true⟩) ∨ (skipBlank s = '>' :: rest ∧ t = ⟨tag, a, false⟩) ∨
      ∃ name value r, readAttribute (skipBlank s) = .ok ((name, value), r) ∧ (skipBlank s).length ≠ s.length ∧
        a.contains name = false ∧ readAttributes tag fuel (a.insert name value) r = .ok (t, rest) := by
  rw [readAttributes] at h
  split at h
  · rename_i r hs
    obtain ⟨rfl, rfl⟩ := Prod.mk.inj (Except.ok.inj h)
    exact .inl ⟨hs, rfl⟩
  · rename_i r hs
    obtain ⟨rfl, rfl⟩ := Prod.mk.inj (Except.ok.inj h)
    exact .inr (.inl ⟨hs, rfl⟩)
  · split at h
    · cases h
    · rename_i hlength
      obtain ⟨⟨⟨name, value⟩, r⟩, hread, h⟩ := bind_eq_ok.1 h
      dsimp only at h
      split at h
      · cases h
      · rename_i hcontains
        refine .inr (.inr ⟨name, value, r, hread, ?_, by simpa using hcontains, h⟩)
        simp at hlength
        exact hlength.2

/-- One more attribute. -/
theorem readAttributes_of_attribute {tag : String} {fuel : Nat} {a : Attributes} {s r : List Char} {name value : String}
    (hread : readAttribute (skipBlank s) = .ok ((name, value), r)) (hlength : (skipBlank s).length ≠ s.length)
    (hnew : a.contains name = false) :
    readAttributes tag (fuel + 1) a s = readAttributes tag fuel (a.insert name value) r := by
  obtain ⟨c, t, hs, hstart, -⟩ := readAttribute_takes hread
  rw [readAttributes]
  split
  · rename_i heq
    obtain rfl : c = '/' := by simpa [hs] using congrArg List.head? heq
    exact absurd hstart (by decide)
  · rename_i heq
    obtain rfl : c = '>' := by simpa [hs] using congrArg List.head? heq
    exact absurd hstart (by decide)
  · have hne : skipBlank s ≠ [] := by simp [hs]
    rw [if_neg (by simp [hne, hlength])]
    refine (congrArg (· >>= _) hread).trans ?_
    simp [hnew, bind, Except.bind]

theorem readAttributes_takes {tag : String} {fuel : Nat} {a : Attributes} {s rest : List Char} {t : StartTag}
    (h : readAttributes tag fuel a s = .ok (t, rest)) : ∃ piece, s = piece ++ rest ∧ piece ≠ [] ∧ '<' ∉ piece ∧
      ∀ rest' fuel', piece.length ≤ fuel' → readAttributes tag fuel' a (piece ++ rest') = .ok (t, rest') := by
  induction fuel generalizing a s with
  | zero => cases h
  | succ fuel ih =>
    obtain ⟨blanks, hs, hblanks⟩ := exists_blanks s
    have hfuel {piece : List Char} {fuel' : Nat} (hne : piece ≠ []) (hle : piece.length ≤ fuel') : ∃ k, fuel' = k + 1 := by
      have := List.length_pos_iff.2 hne
      exact ⟨fuel' - 1, by omega⟩
    rcases readAttributes_cases h with ⟨hskip, rfl⟩ | ⟨hskip, rfl⟩ | ⟨name, value, r, hread, hlength, hnew, hrest⟩
    · refine ⟨blanks ++ ['/', '>'], by rw [hs, hskip]; simp, by simp, by simpa using not_mem_blanks hblanks, ?_⟩
      intro rest' fuel' hle
      obtain ⟨k, rfl⟩ := hfuel (by simp) hle
      rw [readAttributes, List.append_assoc, List.cons_append, skipBlank_append hblanks (by decide)]
      rfl
    · refine ⟨blanks ++ ['>'], by rw [hs, hskip]; simp, by simp, by simpa using not_mem_blanks hblanks, ?_⟩
      intro rest' fuel' hle
      obtain ⟨k, rfl⟩ := hfuel (by simp) hle
      rw [readAttributes, List.append_assoc, List.cons_append, skipBlank_append hblanks (by decide)]
      rfl
    · obtain ⟨c, u, hskip, hstart, hplain, hread'⟩ := readAttribute_takes hread
      obtain ⟨piece, rfl, hne, hplain', hread''⟩ := ih hrest
      have hblank : isMarkupBlank c = false := isMarkupBlank_of_isNameStart hstart
      refine ⟨blanks ++ (c :: u ++ piece), by rw [hs, hskip]; simp, by simp, ?_, fun rest' fuel' hle => ?_⟩
      · simp only [List.mem_append, not_or]
        exact ⟨not_mem_blanks hblanks, hplain, hplain'⟩
      · obtain ⟨k, rfl⟩ := hfuel (by simp) hle
        have hskip' : skipBlank (blanks ++ (c :: u ++ piece) ++ rest') = c :: u ++ (piece ++ rest') := by
          simpa using skipBlank_append hblanks hblank (u ++ (piece ++ rest'))
        have hlength' : (skipBlank (blanks ++ (c :: u ++ piece) ++ rest')).length ≠
            (blanks ++ (c :: u ++ piece) ++ rest').length := by
          have hsome := congrArg List.length hs
          rw [List.length_append] at hsome
          rw [hskip']
          simp only [List.length_append]
          omega
        rw [readAttributes_of_attribute (by rw [hskip']; exact hread' _) hlength' hnew]
        refine hread'' rest' k ?_
        simp only [List.length_append, List.length_cons] at hle
        omega

theorem readStartTag_takes {s rest : List Char} {t : StartTag} (h : readStartTag s = .ok (t, rest)) :
    ∃ c r, s = '<' :: (c :: r ++ rest) ∧ isNameStart c = true ∧ '<' ∉ c :: r ∧
      ∀ rest', readStartTag ('<' :: (c :: r ++ rest')) = .ok (t, rest') := by
  obtain ⟨r₁, hopen, h⟩ := bind_eq_ok.1 h
  obtain ⟨⟨tag, r₂⟩, hname, hattributes⟩ := bind_eq_ok.1 h
  obtain ⟨c, r, rfl, hstart, hplain, -, hread⟩ := readName_takes hname
  obtain ⟨piece, rfl, hne, hplain', hread'⟩ := readAttributes_takes hattributes
  refine ⟨c, r ++ piece, by simp [readChar_eq_ok.1 hopen], hstart, ?_, fun rest' => ?_⟩
  · rw [← List.cons_append, List.mem_append, not_or]
    exact ⟨hplain, hplain'⟩
  · have hhead : (piece ++ rest').head? = (piece ++ rest).head? := by
      obtain ⟨d, piece, rfl⟩ := List.exists_cons_of_ne_nil hne
      rfl
    have hsplit : c :: (r ++ piece) ++ rest' = c :: r ++ (piece ++ rest') := by simp
    rw [hsplit]
    refine bind_eq_ok.2 ⟨_, readChar_cons _ _, bind_eq_ok.2 ⟨_, hread _ hhead, ?_⟩⟩
    exact hread' rest' _ (by simp)

theorem readEndTag_takes {s rest : List Char} {tag : String} (h : readEndTag s = .ok (tag, rest)) :
    ∃ piece, s = piece ++ rest ∧ '<' ∉ piece ∧ ∀ rest', readEndTag (piece ++ rest') = .ok (tag, rest') := by
  obtain ⟨⟨tag, r₁⟩, hname, h⟩ := bind_eq_ok.1 h
  obtain ⟨r₂, hclose, h⟩ := bind_eq_ok.1 h
  obtain ⟨rfl, rfl⟩ := Prod.mk.inj (Except.ok.inj h)
  obtain ⟨c, r, rfl, -, hplain, -, hread⟩ := readName_takes hname
  obtain ⟨blanks, hr₁, hblanks⟩ := exists_blanks r₁
  rw [readChar_eq_ok.1 hclose] at hr₁
  refine ⟨c :: r ++ (blanks ++ ['>']), by simp [hr₁], ?_, fun rest' => ?_⟩
  · simp only [List.mem_append, not_or]
    exact ⟨hplain, not_mem_blanks hblanks, by decide⟩
  · have hhead : (blanks ++ '>' :: rest').head? = r₁.head? := by
      rw [hr₁]
      cases blanks <;> rfl
    rw [List.append_assoc, List.append_assoc]
    refine bind_eq_ok.2 ⟨_, hread _ hhead, bind_eq_ok.2 ⟨_, readChar_eq_ok.2 (skipBlank_append hblanks (by decide) _), rfl⟩⟩

/-! ## Tokens -/

/-- The end marks that the reader looks for. -/
def endMarks : List (List Char) := [commentClose, cdataClose, instructionClose]

/-- How far a token reaches: it has `<` in front only, or ends in an end mark. -/
def IsTokenText (piece : List Char) : Prop := '<' ∉ piece.tail ∨ ∃ content, ∃ close ∈ endMarks, piece = content ++ close

theorem readText_takes {s rest : List Char} {token : Token} (hhead : s.head? ≠ some '<') (hne : s ≠ [])
    (h : readText s = .ok (token, rest)) : ∃ piece, s = piece ++ rest ∧ Takes readToken piece token rest ∧ IsTokenText piece := by
  have hplain : ∀ c ∈ s.takeWhile (· != '<'), (c != '<') = true := List.all_eq_true.1 List.all_takeWhile
  obtain ⟨c, r, rfl⟩ := List.exists_cons_of_ne_nil hne
  have hc : (c != '<') = true := by simpa using hhead
  unfold readText at h
  dsimp only at h
  split at h
  · cases h
  · rename_i hcut
    split at h
    · rename_i content hdecode
      obtain ⟨rfl, rfl⟩ := Prod.mk.inj (Except.ok.inj h)
      refine ⟨_, List.takeWhile_append_dropWhile.symm, ⟨by simp [hc], fun rest' hrest => ?_⟩, .inl fun hm => ?_⟩
      · have hstop : ∀ d ∈ rest'.head?, (d != '<') = false := by
          rw [hrest]
          exact not_of_head?_dropWhile
        obtain ⟨htake, hdrop⟩ := span_append hplain hstop
        have hhead' : ((c :: r).takeWhile (· != '<') ++ rest').head? ≠ some '<' := by simpa [hc] using hhead
        rw [readToken, if_neg hhead', readText, htake, hdrop]
        simp only [hcut, hdecode]
      · exact absurd (hplain _ (List.mem_of_mem_tail hm)) (by decide)
    · cases h

/-- A processing instruction reaches to the first end mark. -/
theorem readToken_instruction {r content rest : List Char}
    (hcut : cut instructionClose ('<' :: '?' :: r) = some (content, rest)) :
    readToken ('<' :: '?' :: r) = .ok (.instruction, rest) := by
  have hhead : ('<' :: '?' :: r).head? = some '<' := rfl
  rw [readToken, if_pos hhead, readMarkup, show strip? endTagOpen ('<' :: '?' :: r) = none from rfl,
    show strip? commentOpen ('<' :: '?' :: r) = none from rfl, show strip? cdataOpen ('<' :: '?' :: r) = none from rfl,
    show startsWith instructionOpen ('<' :: '?' :: r) = true from rfl]
  exact bind_eq_ok.2 ⟨_, readUntil_eq_ok.2 hcut, rfl⟩

/-- A processing instruction is the same whatever follows its end mark. The mark may begin with the `?` that the
instruction begins with. -/
theorem instruction_append {s content rest : List Char} (hopen : startsWith instructionOpen s = true)
    (hcut : cut instructionClose s = some (content, rest)) (rest' : List Char) :
    ∃ r, content ++ instructionClose ++ rest' = '<' :: '?' :: r ∧
      cut instructionClose ('<' :: '?' :: r) = some (content, rest') := by
  obtain ⟨r, hr⟩ := Option.isSome_iff_exists.1 hopen
  have hs : '<' :: '?' :: r = content ++ instructionClose ++ rest := (strip?_eq_some_iff.1 hr).symm.trans (cut_eq_append hcut)
  have hcut' := cut_append_right hcut rest'
  rw [List.append_assoc]
  match content, hs, hcut' with
  | [], hs, _ => cases (List.cons.inj hs).1
  | [c], hs, hcut' =>
    obtain rfl : '<' = c := (List.cons.inj hs).1
    exact ⟨'>' :: rest', rfl, hcut'⟩
  | c :: d :: content, hs, hcut' =>
    obtain rfl : '<' = c := (List.cons.inj hs).1
    obtain rfl : '?' = d := (List.cons.inj (List.cons.inj hs).2).1
    exact ⟨_, rfl, hcut'⟩

theorem readMarkup_takes {s rest : List Char} {token : Token} (h : readMarkup s = .ok (token, rest)) :
    ∃ piece, s = piece ++ rest ∧ Takes readToken piece token rest ∧ IsTokenText piece := by
  unfold readMarkup at h
  split at h
  · rename_i r hr
    obtain ⟨⟨tag, rest'⟩, hread, h⟩ := bind_eq_ok.1 h
    obtain ⟨rfl, rfl⟩ := Prod.mk.inj (Except.ok.inj h)
    obtain ⟨piece, rfl, hplain, hread'⟩ := readEndTag_takes hread
    refine ⟨endTagOpen ++ piece, by simp [strip?_eq_some_iff.1 hr], ⟨by simp [endTagOpen], fun rest' _ => ?_⟩, .inl ?_⟩
    · have hhead : (endTagOpen ++ (piece ++ rest')).head? = some '<' := rfl
      rw [List.append_assoc, readToken, if_pos hhead, readMarkup, strip?_append]
      exact bind_eq_ok.2 ⟨_, hread' rest', rfl⟩
    · simpa [endTagOpen] using hplain
  split at h
  · rename_i r hr
    obtain ⟨⟨content, rest'⟩, huntil, h⟩ := bind_eq_ok.1 h
    obtain ⟨rfl, rfl⟩ := Prod.mk.inj (Except.ok.inj h)
    have hcut := readUntil_eq_ok.1 huntil
    refine ⟨commentOpen ++ (content ++ commentClose), by simp [strip?_eq_some_iff.1 hr, cut_eq_append hcut],
      ⟨by simp [commentOpen], fun rest' _ => readToken_comment (occurs_before_cut (by decide) hcut) rest'⟩, .inr ?_⟩
    exact ⟨commentOpen ++ content, commentClose, by simp [endMarks], by simp⟩
  split at h
  · rename_i r hr
    obtain ⟨⟨content, rest'⟩, huntil, h⟩ := bind_eq_ok.1 h
    obtain ⟨rfl, rfl⟩ := Prod.mk.inj (Except.ok.inj h)
    have hcut := readUntil_eq_ok.1 huntil
    refine ⟨cdataOpen ++ (content ++ cdataClose), by simp [strip?_eq_some_iff.1 hr, cut_eq_append hcut],
      ⟨by simp [cdataOpen], fun rest' _ => readToken_cdata (occurs_before_cut (by decide) hcut) rest'⟩, .inr ?_⟩
    exact ⟨cdataOpen ++ content, cdataClose, by simp [endMarks], by simp⟩
  split at h
  · rename_i hopen
    obtain ⟨⟨content, rest'⟩, huntil, h⟩ := bind_eq_ok.1 h
    obtain ⟨rfl, rfl⟩ := Prod.mk.inj (Except.ok.inj h)
    have hcut := readUntil_eq_ok.1 huntil
    refine ⟨content ++ instructionClose, cut_eq_append hcut, ⟨by simp [instructionClose], fun rest' _ => ?_⟩,
      .inr ⟨content, instructionClose, by simp [endMarks], rfl⟩⟩
    obtain ⟨r, hr, hcut'⟩ := instruction_append hopen hcut rest'
    rw [hr, readToken_instruction hcut']
  split at h
  · cases h
  · obtain ⟨⟨t, rest'⟩, hread, h⟩ := bind_eq_ok.1 h
    obtain ⟨rfl, rfl⟩ := Prod.mk.inj (Except.ok.inj h)
    obtain ⟨c, r, rfl, hstart, hplain, hread'⟩ := readStartTag_takes hread
    refine ⟨'<' :: c :: r, by simp, ⟨by simp, fun rest' _ => ?_⟩, .inl hplain⟩
    have hopen : opensElement ('<' :: (c :: r ++ rest')) = true := by
      simp only [List.cons_append, opensElement, List.head?_cons, Bool.and_eq_true, bne_iff_ne, ne_eq, Option.some.injEq]
      refine ⟨⟨?_, ?_⟩, ?_⟩ <;> (rintro rfl; exact absurd hstart (by decide))
    exact readToken_of_readStartTag hopen (hread' rest')

theorem readToken_takes {s rest : List Char} {token : Token} (hne : s ≠ []) (h : readToken s = .ok (token, rest)) :
    ∃ piece, s = piece ++ rest ∧ Takes readToken piece token rest ∧ IsTokenText piece := by
  unfold readToken at h
  split at h
  · exact readMarkup_takes h
  · rename_i hhead
    exact readText_takes hhead hne h

/-! ## Fences -/

/-- A text that begins with `<` and holds no end mark. -/
structure IsFence (fence : List Char) : Prop where
  head : fence.head? = some '<'
  no_mark : ∀ close ∈ endMarks, occurs close fence = false

theorem not_mem_endMarks : ∀ close ∈ endMarks, '<' ∉ close := by decide

/-- What ends in an end mark, ends before the fence. -/
theorem mark_before {fence s piece rest content close : List Char} (hf : IsFence fence) (hclose : close ∈ endMarks)
    (hpiece : piece = content ++ close) (h : s ++ fence = piece ++ rest) : ∃ s', s = piece ++ s' ∧ rest = s' ++ fence := by
  rcases List.append_eq_append_iff.1 h with ⟨part, hpart, hfence⟩ | ⟨s', hs, hrest⟩
  · cases part with
    | nil => exact ⟨[], by simpa using hpart.symm, by simpa using hfence.symm⟩
    | cons c part =>
      obtain rfl : c = '<' := by simpa [hfence] using hf.head
      -- the end mark has no `<`, so that it stands in the fence
      rcases List.append_eq_append_iff.1 (hpart.symm.trans hpiece) with ⟨inside, -, hinside⟩ | ⟨inside, -, hinside⟩
      · have hsuffix : close ++ rest <:+ fence := ⟨inside, by rw [hfence, hinside, List.append_assoc]⟩
        have hnone := strip?_eq_none_of_occurs (hf.no_mark close hclose) hsuffix
        rw [strip?_append] at hnone
        cases hnone
      · exact absurd (by simp [hinside]) (not_mem_endMarks close hclose)
  · exact ⟨s', hs, hrest⟩

/-- What has `<` in front only, ends before the fence. -/
theorem plain_before {fence s piece rest : List Char} (hf : IsFence fence) (hne : s ≠ []) (hplain : '<' ∉ piece.tail)
    (h : s ++ fence = piece ++ rest) : ∃ s', s = piece ++ s' ∧ rest = s' ++ fence := by
  rcases List.append_eq_append_iff.1 h with ⟨part, hpart, hfence⟩ | ⟨s', hs, hrest⟩
  · cases part with
    | nil => exact ⟨[], by simpa using hpart.symm, by simpa using hfence.symm⟩
    | cons c part =>
      obtain rfl : c = '<' := by simpa [hfence] using hf.head
      obtain ⟨d, s, rfl⟩ := List.exists_cons_of_ne_nil hne
      exact absurd (by simp [hpart]) hplain
  · exact ⟨s', hs, hrest⟩

/-- No token that begins before a fence ends behind its beginning. -/
theorem readToken_before {fence s rest : List Char} {token : Token} (hf : IsFence fence) (hne : s ≠ [])
    (h : readToken (s ++ fence) = .ok (token, rest)) : ∃ s', rest = s' ++ fence ∧ s'.length < s.length ∧
      ∀ after, after.head? = some '<' → readToken (s ++ after) = .ok (token, s' ++ after) := by
  obtain ⟨piece, heq, ⟨hpiece, hread⟩, htext⟩ := readToken_takes (by simp [hne]) h
  obtain ⟨s', rfl, rfl⟩ : ∃ s', s = piece ++ s' ∧ rest = s' ++ fence := by
    rcases htext with hplain | ⟨content, close, hclose, hmark⟩
    · exact plain_before hf hne hplain heq
    · exact mark_before hf hclose hmark heq
  refine ⟨s', rfl, ?_, fun after hafter => ?_⟩
  · have := List.length_pos_iff.2 hpiece
    rw [List.length_append]
    omega
  · rw [List.append_assoc]
    refine hread _ ?_
    cases s' with
    | nil => exact hafter.trans hf.head.symm
    | cons c s' => rfl

end EmailMarkup.Template
