import EmailMarkup.Html.Document
import EmailMarkup.Proofs.Html.StartTag
import Mathlib.Tactic.SplitIfs
/-!
# Pieces of HTML

How HTML is cut into pieces, said for texts that are put together: `Scans s ps` holds for the pieces of `s` and only
for them (`piecesFrom_eq`). Its rules say for each kind of piece what the text of it is, and that what follows does not
matter.
-/
namespace EmailMarkup.Html

open EmailMarkup.Text

/-! ## Ends that are found whatever follows -/

theorem through?_eq_some {skip : Nat} {close s text rest : List Char} (hclose : close ≠ [])
    (h : through? skip close s = some (text, rest)) :
    ∃ front before, s = front ++ (before ++ (close ++ rest)) ∧ front.length = skip ∧ text = front ++ (before ++ close) ∧
      ∀ r, through? skip close (text ++ r) = some (text, r) := by
  obtain ⟨⟨before, after⟩, hcut, heq⟩ := Option.map_eq_some_iff.1 h
  obtain ⟨rfl, rfl⟩ := Prod.mk.inj heq
  have hdrop := cut_eq_append hcut
  have hlength : (s.take skip).length = skip := by
    have hpos : 0 < (s.drop skip).length := by
      rw [hdrop, List.length_append, List.length_append]
      have := List.length_pos_iff.2 hclose
      omega
    rw [List.length_drop] at hpos
    rw [List.length_take]
    omega
  refine ⟨s.take skip, before, ?_, hlength, by simp, fun r => ?_⟩
  · conv => lhs; rw [← List.take_append_drop skip s, hdrop]
    simp
  · have htake : (s.take skip ++ (before ++ (close ++ r))).take skip = s.take skip := List.take_left' hlength
    have hrest : (s.take skip ++ (before ++ (close ++ r))).drop skip = before ++ (close ++ r) := List.drop_left' hlength
    rw [through?]
    simp only [List.append_assoc] at htake hrest ⊢
    rw [htake, hrest, cut_append_right hcut]
    rfl

/-- The end is found whatever follows. -/
theorem through?_append {skip : Nat} {close s text rest : List Char} (hclose : close ≠ [])
    (h : through? skip close s = some (text, rest)) :
    s = text ++ rest ∧ close ⊆ text ∧ ∀ r, through? skip close (text ++ r) = some (text, r) := by
  obtain ⟨front, before, rfl, -, rfl, hr⟩ := through?_eq_some hclose h
  exact ⟨by simp, fun c hc => by simp [hc], hr⟩

theorem special?_append {t : List Char} (ht : '>' ∈ t) (r : List Char) : special? (t ++ r) =
    if startsWith ['<', '!', '-', '-'] t then some (through? 4 ['-', '-', '>'] (t ++ r))
    else if (stripFold? ['<', '!', 'd', 'o', 'c', 't', 'y', 'p', 'e'] t).isSome then some (through? 0 ['>'] (t ++ r))
    else if startsWith ['<', '!', '[', 'C', 'D', 'A', 'T', 'A', '['] t then some (through? 9 [']', ']', '>'] (t ++ r))
    else if startsWith ['<', '?'] t then some (through? 0 ['?', '>'] (t ++ r))
    else none := by
  rw [special?, startsWith_append_of_mem ht (by decide), isSome_stripFold?_append_of_mem ht (by simp),
    startsWith_append_of_mem ht (by decide), startsWith_append_of_mem ht (by decide)]

theorem special?_eq_some {s text rest : List Char} (h : special? s = some (some (text, rest))) :
    s = text ++ rest ∧ '>' ∈ text ∧ ∀ r, special? (text ++ r) = some (some (text, r)) := by
  have hsplit : s = text ++ rest ∧ '>' ∈ text := by
    rw [special?] at h
    split_ifs at h
    all_goals
      obtain ⟨heq, hsub, -⟩ := through?_append (by decide) (Option.some.inj h)
      exact ⟨heq, hsub (by decide)⟩
  obtain ⟨rfl, ht⟩ := hsplit
  refine ⟨rfl, ht, fun r => ?_⟩
  rw [special?_append ht] at h ⊢
  split_ifs at h ⊢
  all_goals
    obtain ⟨-, -, hr⟩ := through?_append (by decide) (Option.some.inj h)
    rw [hr]

theorem special?_eq_none {t rest : List Char} (ht : '>' ∈ t) (h : special? (t ++ rest) = none) (r : List Char) :
    special? (t ++ r) = none := by
  rw [special?_append ht] at h ⊢
  split_ifs at h ⊢
  rfl

/-- The end tag of a raw element is found whatever follows. -/
theorem rawContent?_append {name : String} (hname : ∀ c ∈ name.toList, c.toLower ≠ '>') {s content rest : List Char}
    (h : rawContent? name s = some (content, rest)) :
    s = content ++ rest ∧ ∀ r, rawContent? name (content ++ r) = some (content, r) := by
  obtain ⟨⟨before, after⟩, hcut, hthrough⟩ := Option.bind_eq_some_iff.1 h
  obtain ⟨tail, rfl, hstrip, -⟩ := cutBy_eq_some_iff.1 hcut
  obtain ⟨front, mid, heq, hlength, rfl, hr⟩ := through?_eq_some (by decide) hthrough
  obtain ⟨rfl, rfl⟩ := List.append_inj heq hlength.symm
  have hpat : ∀ c ∈ '<' :: '/' :: name.toList, c.toLower ≠ '>'.toLower := by
    simpa using hname
  have hmid := length_le_of_stripFold? hpat hstrip
  refine ⟨by simp, fun r => ?_⟩
  have hcut' : cutFold ('<' :: '/' :: name.toList) (before ++ ((mid ++ ['>']) ++ rest)) = some (before, after) := by
    simpa using hcut
  obtain ⟨m, -, hstay⟩ := cutBy_append_right (fun _ r hk => stripFold?_append_right hk r)
    (Nat.le_trans hmid (by simp)) hcut' r
  have hcut'' : cutFold ('<' :: '/' :: name.toList) (before ++ (mid ++ ['>']) ++ r) = some (before, m ++ r) := by
    rw [List.append_assoc]
    exact hstay
  rw [rawContent?, hcut'']
  exact hr r

/-! ## Start tags -/

theorem bang_ne_toLower {c : Char} (h : c ≠ '!') : '!' ≠ c.toLower := by
  intro he
  unfold Char.toLower at he
  split at he
  · rename_i hupper
    have hcode := congrArg UInt32.toNat (congrArg Char.val he)
    simp [UInt32.le_iff_toNat_le] at hupper hcode
    omega
  · exact h he.symm

/-- Whether the content of the element is not markup. -/
def StartTag.isRaw (t : StartTag) : Bool := t.isOpen && rawElements.contains t.name

theorem startPieces_eq (t : StartTag) (s : List Char) : startPieces t s =
    if t.isRaw then
      match rawContent? t.name s with
      | some (content, rest) => ([.start t, .stop t.name content], rest)
      | none => ([.start t], s)
    else ([.start t], s) :=
  rfl

theorem StartTag.IsRead.readAngle_eq {t : StartTag} {name attributes : List Char} (h : t.IsRead name attributes)
    (r : List Char) : readAngle (t.text ++ r) = startPieces t r := by
  obtain ⟨c, u, hu⟩ := List.exists_cons_of_ne_nil h.composed.name_ne_nil
  have hinner : t.text ++ r = '<' :: (t.inner ++ '>' :: r) := by simp [h.text_eq_inner]
  have hhead : t.inner ++ '>' :: r = c :: (u ++ (attributes ++ slash t.closed) ++ '>' :: r) := by
    simp [h.composed.eq, hu]
  have hne : c ≠ '!' ∧ c ≠ '/' ∧ c ≠ '?' := by
    have h₁ := h.composed.not_declaration
    have h₂ := h.head
    simp_all
  have hspecial : special? (t.text ++ r) = none := by
    rw [hinner, hhead, special?]
    simp [startsWith, strip?, stripFold?, Ne.symm hne.1, Ne.symm hne.2.2, bang_ne_toLower hne.1]
  have hstop : startsWith ['<', '/'] (t.text ++ r) = false := by
    rw [hinner, hhead]
    simp [startsWith, strip?, Ne.symm hne.2.1]
  have hcut : cutOutside ⟨[], []⟩ '>' {} (t.inner ++ '>' :: r) = some (t.inner, r) :=
    cutOutside_eq_some_iff.2 ⟨rfl, {}, h.passes, rfl⟩
  rw [readAngle, hspecial, hstop, readStart, hinner, List.drop_one, List.tail_cons]
  simp [hcut, h.read]

/-! ## All pieces -/

def textOf (ps : List Piece) : List Char := ps.flatMap Piece.text

def Piece.isStart : Piece → Bool
  | .start _ => true
  | _ => false

/-- A piece that is read off the front whatever follows. -/
structure Whole (p : Piece) : Prop where
  opens : ∃ t, p.text = '<' :: t
  read : ∀ r, readAngle (p.text ++ r) = ([p], r)

/-- The pieces of a text. -/
inductive Scans : List Char → List Piece → Prop
  | nil : Scans [] []
  | text {c : Char} {t rest : List Char} {ps : List Piece} (hc : c ≠ '<') (ht : '<' ∉ t) (hrest : ∀ d ∈ rest.head?, d = '<')
    (h : Scans rest ps) : Scans (c :: t ++ rest) (.other (c :: t) :: ps)
  /-- Something without an end goes on to the end of the text. -/
  | last {t : List Char} (ht : readAngle ('<' :: t) = ([.other ('<' :: t)], [])) : Scans ('<' :: t) [.other ('<' :: t)]
  | plain {p : Piece} {rest : List Char} {ps : List Piece} (hp : p.isStart = false) (hw : Whole p) (h : Scans rest ps) :
    Scans (p.text ++ rest) (p :: ps)
  | start {tag : StartTag} {name attributes rest : List Char} {ps : List Piece} (htag : tag.IsRead name attributes)
    (hraw : tag.isRaw = false) (h : Scans rest ps) : Scans (tag.text ++ rest) (.start tag :: ps)
  | raw {tag : StartTag} {name attributes content rest : List Char} {ps : List Piece} (htag : tag.IsRead name attributes)
    (hraw : tag.isRaw = true) (hcontent : ∀ r, rawContent? tag.name (content ++ r) = some (content, r)) (h : Scans rest ps) :
    Scans (tag.text ++ (content ++ rest)) (.start tag :: .stop tag.name content :: ps)
  /-- A raw element without an end has markup behind it. -/
  | unclosed {tag : StartTag} {name attributes rest : List Char} {ps : List Piece} (htag : tag.IsRead name attributes)
    (hraw : tag.isRaw = true) (hnone : rawContent? tag.name rest = none) (h : Scans rest ps) :
    Scans (tag.text ++ rest) (.start tag :: ps)

theorem piecesFrom_nil (n : Nat) : piecesFrom n [] = [] := by cases n <;> rfl

/-- What begins with `<` is read first, then the rest. -/
theorem piecesFrom_angle {n : Nat} {front rest : List Char} {ps qs : List Piece} (hopens : ∃ t, front = '<' :: t)
    (hread : readAngle (front ++ rest) = (ps, rest)) (hrest : ∀ {n}, rest.length ≤ n → piecesFrom n rest = qs)
    (hn : (front ++ rest).length ≤ n) : piecesFrom n (front ++ rest) = ps ++ qs := by
  obtain ⟨t, rfl⟩ := hopens
  cases n with
  | zero => simp at hn
  | succ n =>
    have hlength : rest.length ≤ n := by
      simp only [List.cons_append, List.length_cons, List.length_append] at hn
      omega
    rw [List.cons_append] at hread ⊢
    simp [piecesFrom, hread, hrest hlength]

theorem StartTag.IsRead.opens {t : StartTag} {name attributes : List Char} (h : t.IsRead name attributes) :
    ∃ u, t.text = '<' :: u :=
  ⟨_, h.text_eq⟩

/-- The pieces are those that are cut. -/
theorem Scans.piecesFrom_eq {s : List Char} {ps : List Piece} (h : Scans s ps) {n : Nat} (hn : s.length ≤ n) :
    piecesFrom n s = ps := by
  induction h generalizing n with
  | nil => exact piecesFrom_nil n
  | @text c t rest ps hc ht hrest h ih =>
    have hspan : (t ++ rest).takeWhile (· != '<') = t ∧ (t ++ rest).dropWhile (· != '<') = rest :=
      span_append (fun d hd => by simpa using ne_of_mem_of_not_mem hd ht) fun d hd => by simpa using hrest d hd
    cases n with
    | zero => simp at hn
    | succ n =>
      have hlength : rest.length ≤ n := by
        simp only [List.cons_append, List.length_cons, List.length_append] at hn
        omega
      simp [piecesFrom, hc, hspan, ih hlength]
  | @last t ht =>
    have hread : readAngle ('<' :: t ++ []) = ([.other ('<' :: t)], []) := by rwa [List.append_nil]
    have hend := piecesFrom_angle (n := n) ⟨t, rfl⟩ hread (fun _ => piecesFrom_nil _) (by simpa using hn)
    rwa [List.append_nil] at hend
  | plain hp hw h ih => exact piecesFrom_angle hw.opens (hw.read _) ih hn
  | @start tag name attributes rest ps htag hraw h ih =>
    have hread : readAngle (tag.text ++ rest) = ([.start tag], rest) := by
      rw [htag.readAngle_eq, startPieces_eq, hraw]
      rfl
    exact piecesFrom_angle htag.opens hread ih hn
  | @raw tag name attributes content rest ps htag hraw hcontent h ih =>
    have hread : readAngle (tag.text ++ content ++ rest) = ([.start tag, .stop tag.name content], rest) := by
      rw [List.append_assoc, htag.readAngle_eq, startPieces_eq, hraw, hcontent]
      rfl
    have hopens : ∃ u, tag.text ++ content = '<' :: u := by
      obtain ⟨u, hu⟩ := htag.opens
      exact ⟨u ++ content, by rw [hu, List.cons_append]⟩
    rw [← List.append_assoc] at hn ⊢
    exact piecesFrom_angle hopens hread ih hn
  | @unclosed tag name attributes rest ps htag hraw hnone h ih =>
    have hread : readAngle (tag.text ++ rest) = ([.start tag], rest) := by
      rw [htag.readAngle_eq, startPieces_eq, hraw, hnone]
      rfl
    exact piecesFrom_angle htag.opens hread ih hn

theorem Scans.unique {s : List Char} {ps qs : List Piece} (hp : Scans s ps) (hq : Scans s qs) : ps = qs :=
  (hp.piecesFrom_eq (Nat.le_refl _)).symm.trans (hq.piecesFrom_eq (Nat.le_refl _))

/-- A start tag as it is read. -/
theorem isRead_of_startTag? {inner : List Char} {tag : StartTag} (h : startTag? inner = some tag)
    (hpasses : Passes quotesOnly '>' {} inner {}) (hstop : inner.head? ≠ some '/') (hspecial : inner.head? ≠ some '?') :
    ∃ name attributes, tag.IsRead name attributes ∧ tag.text = '<' :: inner ++ ['>'] := by
  obtain ⟨name, attributes, hcomposed⟩ := exists_composed h
  obtain ⟨style, hread, -⟩ := hcomposed.startTag?_eq
  have htext : tag.text = '<' :: inner ++ ['>'] := congrArg StartTag.text (Option.some.inj (h.symm.trans hread))
  have hinner : tag.inner = inner := by simp [StartTag.inner, htext]
  have hhead : inner.head? = name.head? := by
    obtain ⟨c, u, hu⟩ := List.exists_cons_of_ne_nil hcomposed.name_ne_nil
    rw [hcomposed.eq, hu]
    rfl
  refine ⟨name, attributes, ⟨?_, ?_, ?_, hhead ▸ ⟨hstop, hspecial⟩⟩, htext⟩
  · rwa [hinner]
  · rwa [hinner]
  · rwa [hinner]

theorem rawElements_chars {t : StartTag} (h : t.isRaw = true) : ∀ c ∈ t.name.toList, c.toLower ≠ '>' := by
  have hname : t.name = "style" ∨ t.name = "script" := by
    simp only [StartTag.isRaw, rawElements, Bool.and_eq_true] at h
    simpa using h.2
  rcases hname with hname | hname <;> rw [hname] <;> simp

/-- What is read first leaves less to read, and its pieces go before those of the rest. -/
def Continues (s : List Char) (ps : List Piece) (rest : List Char) : Prop :=
  rest.length < s.length ∧ ∀ qs, Scans rest qs → Scans s (ps ++ qs)

theorem Scans.eq_nil {qs : List Piece} (h : Scans [] qs) : qs = [] := (h.piecesFrom_eq (Nat.le_refl 0)).symm

theorem continues_last {t : List Char} (h : readAngle ('<' :: t) = ([.other ('<' :: t)], [])) :
    Continues ('<' :: t) [.other ('<' :: t)] [] := by
  refine ⟨by simp, fun qs hqs => ?_⟩
  rw [hqs.eq_nil]
  exact .last h

theorem continues_plain {t rest : List Char} {p : Piece} (text : List Char) (hp : p.isStart = false) (htext : p.text = text)
    (hgt : '>' ∈ text) (heq : '<' :: t = text ++ rest) (hread : ∀ r, readAngle (text ++ r) = ([p], r)) :
    Continues ('<' :: t) [p] rest := by
  subst htext
  obtain ⟨c, u, hu⟩ := List.exists_cons_of_ne_nil (List.ne_nil_of_mem hgt)
  have hc : '<' = c := by
    rw [hu] at heq
    exact (List.cons.inj heq).1
  refine ⟨?_, fun qs hqs => ?_⟩
  · rw [heq, hu, List.length_append, List.length_cons]
    omega
  · rw [heq]
    exact .plain hp ⟨⟨u, by rw [hu, hc]⟩, hread⟩ hqs

/-- An end tag. -/
theorem continues_stop {t : List Char} (hspecial : special? ('<' :: t) = none)
    (hstop : startsWith ['<', '/'] ('<' :: t) = true) : Continues ('<' :: t) (readStop ('<' :: t)).1 (readStop ('<' :: t)).2 := by
  have hread : readAngle ('<' :: t) = readStop ('<' :: t) := by rw [readAngle, hspecial, hstop]; rfl
  cases hthrough : through? 0 ['>'] ('<' :: t) with
  | none =>
    have hlast : readStop ('<' :: t) = ([.other ('<' :: t)], []) := by rw [readStop, hthrough]
    rw [hlast]
    exact continues_last (hread.trans hlast)
  | some p =>
    obtain ⟨text, rest⟩ := p
    obtain ⟨heq, hsub, hr⟩ := through?_append (by decide) hthrough
    have hgt : '>' ∈ text := hsub (by decide)
    rw [readStop, hthrough]
    refine continues_plain text rfl rfl hgt heq fun r => ?_
    rw [heq] at hspecial hstop
    rw [startsWith_append_of_mem hgt (by decide)] at hstop
    rw [readAngle, special?_eq_none hgt hspecial, startsWith_append_of_mem hgt (by decide), hstop]
    simp [readStop, hr]

/-- A start tag. -/
theorem continues_start {t : List Char} (hspecial : special? ('<' :: t) = none)
    (hstop : startsWith ['<', '/'] ('<' :: t) = false) :
    Continues ('<' :: t) (readStart ('<' :: t)).1 (readStart ('<' :: t)).2 := by
  have hread : readAngle ('<' :: t) = readStart ('<' :: t) := by rw [readAngle, hspecial, hstop]; rfl
  cases hcut : cutOutside ⟨[], []⟩ '>' {} t with
  | none =>
    have hlast : readStart ('<' :: t) = ([.other ('<' :: t)], []) := by
      rw [readStart, List.drop_one, List.tail_cons, hcut]
    rw [hlast]
    exact continues_last (hread.trans hlast)
  | some p =>
    obtain ⟨inner, rest⟩ := p
    obtain ⟨rfl, n, hpasses, hout⟩ := cutOutside_eq_some_iff.1 hcut
    obtain rfl := Passes.eq_outside hpasses hout
    rw [readStart, List.drop_one, List.tail_cons, hcut]
    simp only
    cases htag : startTag? inner with
    | none =>
      have hgt : '>' ∈ '<' :: inner ++ ['>'] := by simp
      have heq : '<' :: (inner ++ '>' :: rest) = '<' :: inner ++ ['>'] ++ rest := by simp
      refine continues_plain ('<' :: inner ++ ['>']) rfl rfl hgt heq fun r => ?_
      rw [heq] at hspecial hstop
      rw [startsWith_append_of_mem hgt (by decide)] at hstop
      have hcut : cutOutside ⟨[], []⟩ '>' {} (inner ++ '>' :: r) = some (inner, r) :=
        cutOutside_eq_some_iff.2 ⟨rfl, {}, hpasses, rfl⟩
      rw [readAngle, special?_eq_none hgt hspecial, startsWith_append_of_mem hgt (by decide), hstop]
      simp [readStart, hcut, htag]
    | some tag =>
      have hslash : inner.head? ≠ some '/' := fun hhead => by
        obtain ⟨u, rfl⟩ := List.head?_eq_some_iff.1 hhead
        simp [startsWith, strip?] at hstop
      have hquestion : inner.head? ≠ some '?' := fun hhead => by
        obtain ⟨u, rfl⟩ := List.head?_eq_some_iff.1 hhead
        simp [special?, startsWith, strip?, stripFold?] at hspecial
      obtain ⟨name, attributes, hisRead, htext⟩ := isRead_of_startTag? htag hpasses hslash hquestion
      have heq : '<' :: (inner ++ '>' :: rest) = tag.text ++ rest := by simp [htext]
      simp only [heq, startPieces_eq]
      have hpos : 0 < tag.text.length := by simp [htext]
      cases hraw : tag.isRaw with
      | false =>
        exact ⟨by simpa using hpos, fun qs hqs => .start hisRead hraw hqs⟩
      | true =>
        cases hcontent : rawContent? tag.name rest with
        | none => exact ⟨by simpa using hpos, fun qs hqs => .unclosed hisRead hraw hcontent hqs⟩
        | some p =>
          obtain ⟨content, rest'⟩ := p
          obtain ⟨rfl, hr⟩ := rawContent?_append (rawElements_chars hraw) hcontent
          refine ⟨?_, fun qs hqs => .raw hisRead hraw hr hqs⟩
          simp only [List.length_append, if_true]
          omega

theorem continues_readAngle (t : List Char) : Continues ('<' :: t) (readAngle ('<' :: t)).1 (readAngle ('<' :: t)).2 := by
  cases hspecial : special? ('<' :: t) with
  | none =>
    rw [readAngle, hspecial]
    cases hstop : startsWith ['<', '/'] ('<' :: t) with
    | true => exact continues_stop hspecial hstop
    | false => exact continues_start hspecial hstop
  | some o =>
    rw [readAngle, hspecial]
    cases o with
    | none => exact continues_last (by rw [readAngle, hspecial])
    | some p =>
      obtain ⟨text, rest⟩ := p
      obtain ⟨heq, hgt, hr⟩ := special?_eq_some hspecial
      exact continues_plain text rfl rfl hgt heq fun r => by rw [readAngle, hr]

/-- Every text has its pieces. -/
theorem scans_piecesFrom {n : Nat} {s : List Char} (hn : s.length ≤ n) : Scans s (piecesFrom n s) := by
  induction n generalizing s with
  | zero =>
    obtain rfl := List.eq_nil_of_length_eq_zero (Nat.le_zero.1 hn)
    exact .nil
  | succ n ih =>
    cases s with
    | nil => exact .nil
    | cons c s =>
      rw [piecesFrom]
      by_cases hc : c = '<'
      · subst hc
        obtain ⟨hlength, hscans⟩ := continues_readAngle s
        rw [if_pos rfl]
        exact hscans _ (ih (by simp only [List.length_cons] at hlength hn; omega))
      · obtain ⟨t, rest, rfl, ht, hrest⟩ := exists_span (· != '<') s
        have hspan := span_append ht hrest
        rw [if_neg hc, hspan.1, hspan.2]
        refine .text hc (fun hmem => by simpa using ht _ hmem) (fun d hd => by simpa using hrest d hd) (ih ?_)
        simp only [List.length_cons, List.length_append] at hn
        omega

end EmailMarkup.Html
