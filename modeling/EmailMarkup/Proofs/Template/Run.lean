import EmailMarkup.Proofs.Template.Piece
/-!
# Runs of the reader

What a token does to the open elements depends on the token and on them alone (`Advances`). So the reader comes to the
same open elements in front of a fence and in front of any other tag (`readContent_before`), and the children that it
reads before it closes an element are the same whatever the element held before (`readContent_closes`).
-/
namespace EmailMarkup.Template

open EmailMarkup.Text

/-! ## Steps -/

/-- What a token does to the innermost open element and to those around it, if it does not end the outermost. -/
inductive Advances : Open → List Open → Token → Open → List Open → Prop
  | empty {top : Open} {outer : List Open} {t : StartTag} (h : t.closed = true) :
      Advances top outer (.start t) (top.add (.element t.tag t.attributes [])) outer
  | start {top : Open} {outer : List Open} {t : StartTag} (h : t.closed = false) :
      Advances top outer (.start t) ⟨t.tag, t.attributes, []⟩ (top :: outer)
  | stop {top parent : Open} {outer : List Open} : Advances top (parent :: outer) (.stop top.tag) (parent.add top.node) outer
  | leaf {top : Open} {outer : List Open} {token : Token} {n : Node} (h : token.leaf? = some n) :
      Advances top outer token (top.add n) outer
  | instruction {top : Open} {outer : List Open} : Advances top outer .instruction top outer
  | blank {top : Open} {outer : List Open} {content : String} (h : (Token.text content).leaf? = none) :
      Advances top outer (.text content) top outer

variable {maxDepth fuel : Nat} {top top' : Open} {outer outer' : List Open} {s rest : List Char} {token : Token} {n : Node}

/-- A token opens an element, closes one, or adds children to the innermost one whatever is open. -/
theorem Advances.cases (h : Advances top outer token top' outer') :
    (∃ t, token = .start t ∧ t.closed = false ∧ top' = ⟨t.tag, t.attributes, []⟩ ∧ outer' = top :: outer) ∨
      (∃ parent, token = .stop top.tag ∧ outer = parent :: outer' ∧ top' = parent.add top.node) ∨
      ∃ nodes, top' = top.addAll nodes ∧ outer' = outer ∧ ∀ o l, Advances o l token (o.addAll nodes) l := by
  cases h with
  | empty h => exact .inr (.inr ⟨[_], rfl, rfl, fun _ _ => .empty h⟩)
  | start h => exact .inl ⟨_, rfl, h, rfl, rfl⟩
  | stop => exact .inr (.inl ⟨_, rfl, rfl, rfl⟩)
  | leaf h => exact .inr (.inr ⟨[_], rfl, rfl, fun _ _ => .leaf h⟩)
  | instruction => exact .inr (.inr ⟨[], rfl, rfl, fun _ _ => .instruction⟩)
  | blank h => exact .inr (.inr ⟨[], rfl, rfl, fun _ _ => .blank h⟩)

theorem not_tooDeep (hdepth : opensElement s = true → outer.length + 1 ≤ maxDepth) :
    (opensElement s && decide (maxDepth < outer.length + 1)) = false := by
  cases hopen : opensElement s with
  | false => rfl
  | true => simpa using hdepth hopen

/-- One token of the content. -/
theorem readContent_of_advances (hne : s ≠ []) (hdepth : opensElement s = true → outer.length + 1 ≤ maxDepth)
    (hread : readToken s = .ok (token, rest)) (h : Advances top outer token top' outer') :
    readContent maxDepth (fuel + 1) top outer s = readContent maxDepth fuel top' outer' rest := by
  rw [readContent, not_tooDeep hdepth, hread]
  · cases h with
    | empty h => simp [h]
    | start h => simp [h]
    | stop => simp
    | leaf h =>
      cases token with
      | start | stop | instruction => cases h
      | comment | cdata | text => simp [h]
    | instruction => simp [Token.leaf?]
    | blank h => simp [h]
  · exact hne

/-- The end tag of the outermost element. -/
theorem readContent_of_end (hne : s ≠ []) (hdepth : opensElement s = true → 1 ≤ maxDepth)
    (hread : readToken s = .ok (.stop top.tag, rest)) : readContent maxDepth (fuel + 1) top [] s = .ok (top.node, rest) := by
  have hlevel : (opensElement s && decide (maxDepth < ([] : List Open).length + 1)) = false := not_tooDeep hdepth
  rw [readContent, hlevel, hread]
  · simp
  · exact hne

/-- The content ends with a token, or goes on behind it. -/
theorem readContent_cases {r : List Char} (h : readContent maxDepth (fuel + 1) top outer s = .ok (n, r)) :
    s ≠ [] ∧ (opensElement s = true → outer.length + 1 ≤ maxDepth) ∧ ∃ token rest, readToken s = .ok (token, rest) ∧
      ((token = .stop top.tag ∧ outer = [] ∧ n = top.node ∧ r = rest) ∨
        ∃ top' outer', Advances top outer token top' outer' ∧ readContent maxDepth fuel top' outer' rest = .ok (n, r)) := by
  cases s with
  | nil => cases h
  | cons c s =>
    refine ⟨List.cons_ne_nil _ _, ?_⟩
    rw [readContent.eq_3 _ _ _ _ _ (List.cons_ne_nil c s)] at h
    split at h
    · cases h
    · rename_i hlevel
      have hdepth : opensElement (c :: s) = true → outer.length + 1 ≤ maxDepth := by
        intro hopen
        simpa [hopen] using hlevel
      refine ⟨hdepth, ?_⟩
      split at h
      · cases h
      · rename_i t rest hread
        refine ⟨_, _, hread, .inr ?_⟩
        split at h
        · rename_i hclosed
          exact ⟨_, _, .empty hclosed, h⟩
        · rename_i hclosed
          exact ⟨_, _, .start (by simpa using hclosed), h⟩
      · rename_i tag rest hread
        split at h
        · rename_i htag
          subst htag
          cases outer with
          | nil =>
            obtain ⟨rfl, rfl⟩ := Prod.mk.inj (Except.ok.inj h)
            exact ⟨_, _, hread, .inl ⟨rfl, rfl, rfl, rfl⟩⟩
          | cons parent outer => exact ⟨_, _, hread, .inr ⟨_, _, .stop, h⟩⟩
        · cases h
      · rename_i token rest hstart hstop hread
        refine ⟨_, _, hread, .inr ?_⟩
        split at h
        · rename_i leaf hleaf
          exact ⟨_, _, .leaf hleaf, h⟩
        · rename_i hleaf
          refine ⟨_, _, ?_, h⟩
          cases token with
          | start t => exact absurd rfl (hstart t)
          | stop tag => exact absurd rfl (hstop tag)
          | comment | cdata => cases hleaf
          | instruction => exact .instruction
          | text content => exact .blank hleaf

theorem Reaches.advance (hdepth : opensElement s = true → outer.length + 1 ≤ maxDepth)
    (hread : readToken s = .ok (token, rest)) (h : Advances top outer token top' outer') (hlen : rest.length < s.length) :
    Reaches maxDepth top outer s top' outer' rest :=
  .step hlen fun hne _ => readContent_of_advances hne hdepth hread h

/-! ## In front of a fence -/

theorem opensElement_append {a b : List Char} (ha : a.head? = some '<') (hb : b.head? = some '<') (hne : s ≠ []) :
    opensElement (s ++ a) = opensElement (s ++ b) := by
  obtain ⟨c, s, rfl⟩ := List.exists_cons_of_ne_nil hne
  by_cases hc : c = '<'
  · subst hc
    cases s with
    | nil => simp [opensElement, ha, hb]
    | cons d s => rfl
  · rw [opensElement_of_head (by simpa using hc), opensElement_of_head (by simpa using hc)]

/-- Content that does not end before a fence is read up to it, and up to any other tag in its place. -/
theorem readContent_before {fence r : List Char} (hf : IsFence fence)
    (h : readContent maxDepth fuel top outer (s ++ fence) = .ok (n, r)) :
    (∃ s', r = s' ++ fence) ∨ ∃ top' outer' fuel', readContent maxDepth fuel' top' outer' fence = .ok (n, r) ∧
      ∀ after, after.head? = some '<' → Reaches maxDepth top outer (s ++ after) top' outer' after := by
  induction fuel generalizing top outer s with
  | zero => cases h
  | succ fuel ih =>
    by_cases hne : s = []
    · subst hne
      exact .inr ⟨top, outer, _, h, fun _ _ => .refl⟩
    · obtain ⟨-, hdepth, token, rest, hread, hend | ⟨top₁, outer₁, hadvances, hgo⟩⟩ := readContent_cases h
      · obtain ⟨-, -, -, rfl⟩ := hend
        obtain ⟨s', rfl, -⟩ := readToken_before hf hne hread
        exact .inl ⟨s', rfl⟩
      · obtain ⟨s', rfl, hlen, hread'⟩ := readToken_before hf hne hread
        rcases ih hgo with hend | ⟨top', outer', fuel', hfence, hreaches⟩
        · exact .inl hend
        · refine .inr ⟨top', outer', fuel', hfence, fun after hafter => ?_⟩
          rw [opensElement_append hf.head hafter hne] at hdepth
          exact (Reaches.advance hdepth (hread' after hafter) hadvances (by simpa using hlen)).trans (hreaches after hafter)

/-! ## Up to the end of an element -/

theorem readToken_shorter (hne : s ≠ []) (h : readToken s = .ok (token, rest)) : rest.length < s.length := by
  obtain ⟨piece, rfl, ⟨hpiece, -⟩, -⟩ := readToken_takes hne h
  have := List.length_pos_iff.2 hpiece
  rw [List.length_append]
  omega

/-- From `s`, the reader comes to the end tag `u` of the innermost element, `v` behind it, and reads the children `more`
on the way, whatever elements are open and whatever they hold: only their number and the innermost tag count. -/
structure Closes (maxDepth depth : Nat) (tag : String) (s : List Char) (more : List Node) (u v : List Char) : Prop where
  read_end : readToken u = .ok (.stop tag, v)
  ne_nil : u ≠ []
  length_le : u.length ≤ s.length
  level : opensElement u = true → depth + 1 ≤ maxDepth
  reaches : ∀ top outer, top.tag = tag → outer.length = depth → Reaches maxDepth top outer s (top.addAll more) outer u

namespace Closes

variable {depth : Nat} {tag : String} {more : List Node} {u v : List Char}

/-- The end tag is there. -/
theorem here (hne : s ≠ []) (hread : readToken s = .ok (.stop tag, v)) (hlevel : opensElement s = true → depth + 1 ≤ maxDepth) :
    Closes maxDepth depth tag s [] s v :=
  ⟨hread, hne, Nat.le_refl _, hlevel, fun _ _ _ _ => .refl⟩

/-- Something that adds nodes is read first. -/
theorem after {nodes : List Node} (hlen : rest.length ≤ s.length) (h : Closes maxDepth depth tag rest more u v)
    (hfirst : ∀ top outer, top.tag = tag → outer.length = depth → Reaches maxDepth top outer s (top.addAll nodes) outer rest) :
    Closes maxDepth depth tag s (nodes ++ more) u v := by
  refine ⟨h.read_end, h.ne_nil, Nat.le_trans h.length_le hlen, h.level, fun top outer htag houter => ?_⟩
  have hadded : (top.addAll nodes).addAll more = top.addAll (nodes ++ more) := by simp [Open.addAll]
  rw [← hadded]
  exact (hfirst top outer htag houter).trans (h.reaches _ outer htag houter)

/-- Behind the end tag, the element is a child of the one around it. -/
theorem parent (h : Closes maxDepth (depth + 1) tag s more u v) {top parent : Open} {outer : List Open} (htag : top.tag = tag)
    (houter : outer.length = depth) :
    Reaches maxDepth top (parent :: outer) s (parent.add (top.addAll more).node) outer v := by
  subst htag
  have hstop : Reaches maxDepth (top.addAll more) (parent :: outer) u (parent.add (top.addAll more).node) outer v :=
    .advance (by simpa [houter] using h.level) h.read_end .stop (readToken_shorter h.ne_nil h.read_end)
  exact (h.reaches top (parent :: outer) rfl (by simp [houter])).trans hstop

/-- The end of the outermost element is the end of the content. -/
theorem readContent_eq (h : Closes maxDepth 0 tag s more u v) (htag : top.tag = tag) (hf : s.length ≤ fuel) :
    readContent maxDepth fuel top [] s = .ok ((top.addAll more).node, v) := by
  subst htag
  obtain ⟨fuel', hfuel', heq⟩ := h.reaches top [] rfl rfl fuel hf
  have hpos := List.length_pos_iff.2 h.ne_nil
  obtain ⟨k, rfl⟩ : ∃ k, fuel' = k + 1 := ⟨fuel' - 1, by omega⟩
  exact heq.trans (readContent_of_end h.ne_nil h.level h.read_end)

end Closes

/-- Content that is read to its end closes the innermost element on the way. -/
theorem readContent_closes {r : List Char} (hf : s.length ≤ fuel) (h : readContent maxDepth fuel top outer s = .ok (n, r)) :
    ∃ more u v, Closes maxDepth outer.length top.tag s more u v := by
  induction hlength : s.length using Nat.strongRecOn generalizing s fuel top outer with
  | ind k ih =>
    cases fuel with
    | zero => cases h
    | succ fuel =>
      obtain ⟨hne, hdepth, token, rest, hread, hend | ⟨top₁, outer₁, hadvances, hgo⟩⟩ := readContent_cases h
      · obtain ⟨rfl, -⟩ := hend
        exact ⟨[], s, rest, .here hne hread hdepth⟩
      · have hlen := readToken_shorter hne hread
        have hfuel : rest.length ≤ fuel := by omega
        rcases hadvances.cases with ⟨t, rfl, hopen, rfl, rfl⟩ | ⟨parent, rfl, rfl, -⟩ | ⟨nodes, rfl, rfl, hadds⟩
        · -- an element inside is closed first, and is then the first child
          obtain ⟨inside, u₁, v₁, hinside⟩ := ih _ (by omega) hfuel hgo rfl
          have hshorter := readToken_shorter hinside.ne_nil hinside.read_end
          have hchild (o : Open) (l : List Open) (hl : l.length = outer.length) :
              Reaches maxDepth ⟨t.tag, t.attributes, []⟩ (o :: l) rest
                (o.addAll [.element t.tag t.attributes inside]) l v₁ := by
            rw [show o.addAll [.element t.tag t.attributes inside] = o.add (.element t.tag t.attributes inside) from rfl,
              ← Open.node_addAll]
            exact hinside.parent rfl hl
          obtain ⟨fuel', hfuel', heq⟩ := hchild top outer rfl fuel hfuel
          have hle := hinside.length_le
          obtain ⟨more, u, v, hcloses⟩ := ih _ (by omega) hfuel' (heq ▸ hgo) rfl
          refine ⟨[.element t.tag t.attributes inside] ++ more, u, v, hcloses.after (by omega) fun o l _ hl => ?_⟩
          exact (Reaches.advance (by rwa [hl]) hread (.start hopen) hlen).trans (hchild o l hl)
        · exact ⟨[], s, rest, .here hne hread hdepth⟩
        · obtain ⟨more, u, v, hcloses⟩ := ih _ (by omega) hfuel hgo rfl
          refine ⟨nodes ++ more, u, v, hcloses.after (Nat.le_of_lt hlen) fun o l _ hl => ?_⟩
          exact .advance (by rwa [hl]) hread (hadds o l) hlen

/-! ## Outside the root -/

/-- What stands before the first `>` begins with every mark without it. -/
theorem exists_append_of_cut {content r t : List Char} (mark : List Char) (hmark : '>' ∉ mark)
    (h : mark ++ t = content ++ tagClose ++ r) : ∃ inside, content = mark ++ inside := by
  rw [List.append_assoc] at h
  rcases List.append_eq_append_iff.1 h with ⟨inside, hinside, -⟩ | ⟨part, hpart, hclose⟩
  · exact ⟨inside, hinside⟩
  · cases part with
    | nil => exact ⟨[], by simpa using hpart.symm⟩
    | cons c part =>
      obtain rfl : '>' = c := (List.cons.inj hclose).1
      exact absurd (by simp [hpart]) hmark

theorem readMisc?_instruction {prolog : Bool} {r content : List Char}
    (hcut : cut instructionClose ('<' :: '?' :: r) = some (content, rest)) :
    readMisc? prolog ('<' :: '?' :: r) = .ok (some rest) := by
  have hopen : startsWith instructionOpen ('<' :: '?' :: r) = true := rfl
  rw [readMisc?, if_pos hopen]
  exact bind_eq_ok.2 ⟨_, readUntil_eq_ok.2 hcut, rfl⟩

theorem readMisc?_comment {prolog : Bool} {content : List Char}
    (hcut : cut commentClose (content ++ (commentClose ++ rest)) = some (content, rest)) :
    readMisc? prolog (commentOpen ++ (content ++ (commentClose ++ rest))) = .ok (some rest) := by
  have hno (t : List Char) : startsWith instructionOpen (commentOpen ++ t) ≠ true := Bool.false_ne_true
  rw [readMisc?, if_neg (hno _), strip?_append]
  exact bind_eq_ok.2 ⟨_, readUntil_eq_ok.2 hcut, rfl⟩

theorem readMisc?_doctype {inside content : List Char}
    (hcut : cut tagClose (doctypeOpen ++ inside) = some (content, rest)) :
    readMisc? true (doctypeOpen ++ inside) = .ok (some rest) := by
  have hno : startsWith instructionOpen (doctypeOpen ++ inside) ≠ true := Bool.false_ne_true
  have hno' : strip? commentOpen (doctypeOpen ++ inside) = none := rfl
  have hopen : (true && startsWith doctypeOpen (doctypeOpen ++ inside)) = true := by simp [startsWith, strip?_append]
  rw [readMisc?, if_neg hno, hno']
  dsimp only
  rw [if_pos hopen]
  exact bind_eq_ok.2 ⟨_, readUntil_eq_ok.2 hcut, rfl⟩

/-- An item outside the root is the same whatever follows. It ends in an end mark, or with the first `>`. -/
theorem readMisc?_takes {prolog : Bool} (h : readMisc? prolog s = .ok (some rest)) :
    ∃ piece, s = piece ++ rest ∧ piece ≠ [] ∧ (∀ rest', readMisc? prolog (piece ++ rest') = .ok (some rest')) ∧
      ((∃ content, ∃ close ∈ endMarks, piece = content ++ close) ∨ ∃ content, piece = content ++ tagClose ∧ '>' ∉ content) := by
  unfold readMisc? at h
  split at h
  · rename_i hopen
    obtain ⟨⟨content, r⟩, huntil, h⟩ := bind_eq_ok.1 h
    obtain rfl := Option.some.inj (Except.ok.inj h)
    have hcut := readUntil_eq_ok.1 huntil
    refine ⟨content ++ instructionClose, cut_eq_append hcut, by simp [instructionClose], fun rest' => ?_,
      .inl ⟨content, instructionClose, by simp [endMarks], rfl⟩⟩
    obtain ⟨r, hr, hcut'⟩ := instruction_append hopen hcut rest'
    rw [hr, readMisc?_instruction hcut']
  split at h
  · rename_i inside hinside
    obtain ⟨⟨content, r⟩, huntil, h⟩ := bind_eq_ok.1 h
    obtain rfl := Option.some.inj (Except.ok.inj h)
    have hcut := readUntil_eq_ok.1 huntil
    refine ⟨commentOpen ++ (content ++ commentClose), by simp [strip?_eq_some_iff.1 hinside, cut_eq_append hcut],
      by simp [commentOpen], fun rest' => ?_, .inl ⟨commentOpen ++ content, commentClose, by simp [endMarks], by simp⟩⟩
    rw [List.append_assoc, List.append_assoc]
    exact readMisc?_comment (cut_append_right hcut rest')
  split at h
  · rename_i hopen
    obtain ⟨⟨content, r⟩, huntil, h⟩ := bind_eq_ok.1 h
    obtain rfl := Option.some.inj (Except.ok.inj h)
    have hcut := readUntil_eq_ok.1 huntil
    obtain ⟨rfl, hdoctype⟩ := Bool.and_eq_true_iff.1 hopen
    obtain ⟨t, ht⟩ := Option.isSome_iff_exists.1 hdoctype
    obtain ⟨inside, rfl⟩ := exists_append_of_cut doctypeOpen (by decide)
      ((strip?_eq_some_iff.1 ht).symm.trans (cut_eq_append hcut))
    refine ⟨_, cut_eq_append hcut, by simp [tagClose], fun rest' => ?_, .inr ⟨_, rfl, (not_mem_of_cut hcut).2⟩⟩
    have hcut' := cut_append_right hcut rest'
    rw [List.append_assoc] at hcut' ⊢
    rw [List.append_assoc]
    exact readMisc?_doctype hcut'
  · cases h

theorem skipBlank_append_tag {after : List Char} (h : after.head? = some '<') (s : List Char) :
    skipBlank (s ++ after) = skipBlank s ++ after := by
  obtain ⟨r, rfl⟩ : ∃ r, after = '<' :: r := List.head?_eq_some_iff.1 h
  induction s with
  | nil => exact skipBlank_of_not_blank (by decide) r
  | cons c s ih =>
    by_cases hc : isMarkupBlank c = true
    · simpa [skipBlank, hc] using ih
    · rw [skipBlank_of_not_blank (by simpa using hc), List.cons_append, skipBlank_of_not_blank (by simpa using hc)]

theorem readMisc?_endTag (prolog : Bool) (r : List Char) : readMisc? prolog (endTagOpen ++ r) = .ok none := by
  cases prolog <;> rfl

theorem skipMiscFrom_endTag (prolog : Bool) (fuel : Nat) (r : List Char) :
    skipMiscFrom prolog fuel (endTagOpen ++ r) = .ok (endTagOpen ++ r) := by
  cases fuel with
  | zero => rfl
  | succ fuel => exact bind_eq_ok.2 ⟨none, readMisc?_endTag prolog r, rfl⟩

theorem readMisc?_eq_none_iff {prolog : Bool} : readMisc? prolog s = .ok none ↔
    strip? instructionOpen s = none ∧ strip? commentOpen s = none ∧ (prolog = true → strip? doctypeOpen s = none) := by
  have hsome (x : Except Stop (List Char × List Char)) : (do let p ← x; return some p.2) ≠ .ok none := by
    intro h
    obtain ⟨p, -, hp⟩ := bind_eq_ok.1 h
    cases hp
  unfold readMisc?
  cases hinstruction : strip? instructionOpen s with
  | some t => simpa [startsWith, hinstruction] using hsome _
  | none =>
    cases hcomment : strip? commentOpen s with
    | some t => simpa [startsWith, hinstruction] using hsome _
    | none =>
      cases hdoctype : strip? doctypeOpen s with
      | none => simp [startsWith, hinstruction, hdoctype]
      | some t =>
        cases prolog with
        | false => simp [startsWith, hinstruction]
        | true => simpa [startsWith, hinstruction, hdoctype] using hsome _

/-- Where no item stands in front of one tag, none stands in front of another. -/
theorem readMisc?_none_append {prolog : Bool} {a b : List Char} (ha : a.head? = some '<') (hb : b.head? = some '<') (hne : s ≠ [])
    (h : readMisc? prolog (s ++ a) = .ok none) : readMisc? prolog (s ++ b) = .ok none := by
  obtain ⟨a, rfl⟩ : ∃ r, a = '<' :: r := List.head?_eq_some_iff.1 ha
  obtain ⟨b, rfl⟩ : ∃ r, b = '<' :: r := List.head?_eq_some_iff.1 hb
  obtain ⟨c, s, rfl⟩ := List.exists_cons_of_ne_nil hne
  have hsame (m : List Char) (hm : '<' ∉ m) (h : strip? ('<' :: m) (c :: s ++ '<' :: a) = none) :
      strip? ('<' :: m) (c :: s ++ '<' :: b) = none := by
    rw [strip?_cons_append_cons hm, Option.map_eq_none_iff] at h ⊢
    exact h
  rw [readMisc?_eq_none_iff] at h ⊢
  exact ⟨hsame _ (by decide) h.1, hsame _ (by decide) h.2.1, fun hp => hsame _ (by decide) (h.2.2 hp)⟩

def fence (tag : String) : List Char := endText tag ++ endText rootTag

theorem cut_fence {tag : String} (ht : isName tag = true) :
    cut tagClose (fence tag) = some (endTagOpen ++ tag.toList, endText rootTag) := by
  have hmem : '>' ∉ endTagOpen ++ tag.toList := by
    rw [List.mem_append, not_or]
    exact ⟨by decide, fun hm => (mem_name ht hm).2.1 rfl⟩
  have hsplit : fence tag = (endTagOpen ++ tag.toList) ++ '>' :: endText rootTag := by simp [fence, endText, tagClose]
  rw [hsplit]
  exact cut_char hmem _

/-- An item that begins before the end tags ends before them, or with the first of them. -/
theorem misc_before {tag : String} {piece : List Char} (ht : isName tag = true) (hf : IsFence (fence tag))
    (hend : (∃ content, ∃ close ∈ endMarks, piece = content ++ close) ∨ ∃ content, piece = content ++ tagClose ∧ '>' ∉ content)
    (h : s ++ fence tag = piece ++ rest) : (∃ s', s = piece ++ s' ∧ rest = s' ++ fence tag) ∨ rest = endText rootTag := by
  rcases hend with ⟨content, close, hclose, hmark⟩ | ⟨content, rfl, hplain⟩
  · exact .inl (mark_before hf hclose hmark h)
  · rcases List.append_eq_append_iff.1 h with ⟨part, hpart, hfence⟩ | ⟨s', hs, hrest⟩
    · rcases List.eq_nil_or_concat part with rfl | ⟨part, c, rfl⟩
      · exact .inl ⟨[], by simpa using hpart.symm, by simpa using hfence.symm⟩
      · rw [List.concat_eq_append, ← List.append_assoc] at hpart
        obtain ⟨rfl, hc⟩ := List.append_inj' hpart rfl
        obtain rfl : '>' = c := by simpa [tagClose] using hc
        have hcut : cut tagClose (part ++ '>' :: rest) = some (part, rest) :=
          cut_char (fun hm => hplain (List.mem_append_right s hm)) rest
        have heq : fence tag = part ++ '>' :: rest := by simpa using hfence
        rw [← heq, cut_fence ht] at hcut
        exact .inr (Prod.mk.inj (Option.some.inj hcut)).2.symm
    · exact .inl ⟨s', hs, hrest⟩

/-- What stands before the root is read up to a place in front of the end tags, or only an end tag is left. -/
theorem skipMiscFrom_before {prolog : Bool} {tag : String} {r : List Char} (ht : isName tag = true) (hf : IsFence (fence tag))
    (hfuel : (s ++ fence tag).length ≤ fuel) (h : skipMiscFrom prolog fuel (s ++ fence tag) = .ok r) :
    (∃ t, r = endTagOpen ++ t) ∨ ∃ s', s' ≠ [] ∧ r = s' ++ fence tag ∧ ∀ after fuel', after.head? = some '<' →
      (s ++ after).length ≤ fuel' → skipMiscFrom prolog fuel' (s ++ after) = .ok (s' ++ after) := by
  induction fuel generalizing s with
  | zero => simp [fence, endText, endTagOpen] at hfuel
  | succ fuel ih =>
    have hlength : (skipBlank s).length ≤ s.length := (List.dropWhile_suffix _).length_le
    have hsucc {after : List Char} {fuel' : Nat} (hafter : after.head? = some '<') (hle : (s ++ after).length ≤ fuel') :
        ∃ k, fuel' = k + 1 := by
      obtain ⟨r, rfl⟩ : ∃ r, after = '<' :: r := List.head?_eq_some_iff.1 hafter
      simp at hle
      exact ⟨fuel' - 1, by omega⟩
    obtain ⟨found, hmisc, h⟩ := bind_eq_ok.1 h
    rw [skipBlank_append_tag hf.head] at hmisc h
    by_cases hne : skipBlank s = []
    · rw [hne] at hmisc h
      have hnone : readMisc? prolog (fence tag) = .ok none := readMisc?_endTag prolog _
      obtain rfl : none = found := Except.ok.inj (hnone.symm.trans hmisc)
      exact .inl ⟨_, (Except.ok.inj h).symm⟩
    · cases found with
      | none =>
        obtain rfl := Except.ok.inj h
        refine .inr ⟨skipBlank s, hne, rfl, fun after fuel' hafter hle => ?_⟩
        obtain ⟨k, rfl⟩ := hsucc hafter hle
        refine bind_eq_ok.2 ⟨none, ?_, ?_⟩
        · rw [skipBlank_append_tag hafter]
          exact readMisc?_none_append hf.head hafter hne hmisc
        · rw [skipBlank_append_tag hafter]
          rfl
      | some rest =>
        obtain ⟨piece, heq, hpiece, hread, hend⟩ := readMisc?_takes hmisc
        rcases misc_before ht hf hend heq with ⟨s₁, hs₁, rfl⟩ | rfl
        · have hpos := List.length_pos_iff.2 hpiece
          rw [hs₁] at hlength
          simp only [List.length_append] at hfuel hlength
          rcases ih (by simp only [List.length_append]; omega) h with hleft | ⟨s', hs', rfl, hskip⟩
          · exact .inl hleft
          · refine .inr ⟨s', hs', rfl, fun after fuel' hafter hle => ?_⟩
            obtain ⟨k, rfl⟩ := hsucc hafter hle
            refine bind_eq_ok.2 ⟨some (s₁ ++ after), ?_, ?_⟩
            · rw [skipBlank_append_tag hafter, hs₁, List.append_assoc]
              exact hread _
            · refine hskip after k hafter ?_
              simp only [List.length_append] at hle ⊢
              omega
        · -- a declaration that reaches into the first end tag leaves the second
          have hend : skipMiscFrom prolog fuel (endText rootTag) = .ok (endText rootTag) := skipMiscFrom_endTag prolog fuel _
          exact .inl ⟨_, (Except.ok.inj (hend.symm.trans h)).symm⟩

end EmailMarkup.Template
