import EmailMarkup.Proofs.Html.Rewritten
/-!
# Comments of HTML

A comment goes from `<!--` to the next `-->`, wherever these stand. Editing start tags keeps the comments of all other
pieces, in their order (`inOrder_edit`). These are all the comments of the text if none is opened in a start tag and each
piece closes those that it opens (`Scans.comments_eq`).
-/
namespace EmailMarkup.Html

open EmailMarkup.Text

def commentOpen : List Char := ['<', '!', '-', '-']

def commentClose : List Char := ['-', '-', '>']

/-- The first comment of a text, and what follows it. -/
def comment? (s : List Char) : Option (List Char × List Char) := do
  let (_, r) ← cut commentOpen s
  let (content, rest) ← cut commentClose r
  return (commentOpen ++ (content ++ commentClose), rest)

/-- The comments of a text, and what stands behind the last of them. The fuel is the length of the text: every comment
takes some of it. -/
def commentsFrom : Nat → List Char → List (List Char) × List Char
  | 0, s => ([], s)
  | fuel + 1, s =>
    match comment? s with
    | none => ([], s)
    | some (k, rest) => (k :: (commentsFrom fuel rest).1, (commentsFrom fuel rest).2)

def comments (s : List Char) : List (List Char) := (commentsFrom s.length s).1

/-- What stands behind the last comment of a text. -/
def behindComments (s : List Char) : List Char := (commentsFrom s.length s).2

/-- Whether a text closes the comments that it opens. -/
def closesComments (s : List Char) : Bool := !occurs commentOpen (behindComments s)

/-! ## One comment after the other -/

theorem comment?_eq_some {s k rest : List Char} (h : comment? s = some (k, rest)) : ∃ gap content,
    cut commentOpen s = some (gap, content ++ (commentClose ++ rest)) ∧
      cut commentClose (content ++ (commentClose ++ rest)) = some (content, rest) ∧
      k = commentOpen ++ (content ++ commentClose) ∧ s = gap ++ (k ++ rest) := by
  obtain ⟨⟨gap, r⟩, hopen, h⟩ := Option.bind_eq_some_iff.1 h
  obtain ⟨⟨content, rest'⟩, hclose, h⟩ := Option.bind_eq_some_iff.1 h
  cases h
  have hr := cut_eq_append hclose
  rw [List.append_assoc] at hr
  refine ⟨gap, content, hr ▸ hopen, hr ▸ hclose, rfl, ?_⟩
  simp only [cut_eq_append hopen, hr, List.append_assoc]

theorem comment?_length {s k rest : List Char} (h : comment? s = some (k, rest)) : rest.length < s.length := by
  obtain ⟨gap, content, -, -, rfl, rfl⟩ := comment?_eq_some h
  simp only [commentOpen, List.length_append, List.length_cons]
  omega

theorem commentsFrom_eq {n : Nat} {s : List Char} (hn : s.length ≤ n) : commentsFrom n s = (comments s, behindComments s) := by
  -- With the length of the text as fuel, or more, the fuel never runs out.
  have hfuel : ∀ m n (s : List Char), s.length ≤ m → s.length ≤ n → commentsFrom m s = commentsFrom n s := by
    intro m
    induction m with
    | zero =>
      intro n s hm _
      obtain rfl := List.eq_nil_of_length_eq_zero (Nat.le_zero.1 hm)
      cases n <;> rfl
    | succ m ih =>
      intro n s hm hn
      cases n with
      | zero =>
        obtain rfl := List.eq_nil_of_length_eq_zero (Nat.le_zero.1 hn)
        rfl
      | succ n =>
        rw [commentsFrom, commentsFrom]
        cases hk : comment? s with
        | none => rfl
        | some p =>
          obtain ⟨k, rest⟩ := p
          have hlength := comment?_length hk
          simp only [ih n rest (by omega) (by omega)]
  exact hfuel n s.length s hn (Nat.le_refl _)

theorem comments_of_none {s : List Char} (h : comment? s = none) : comments s = [] ∧ behindComments s = s := by
  rw [comments, behindComments]
  cases s with
  | nil => exact ⟨rfl, rfl⟩
  | cons c s => simp only [List.length_cons, commentsFrom, h, and_self]

theorem comments_of_some {s k rest : List Char} (h : comment? s = some (k, rest)) :
    comments s = k :: comments rest ∧ behindComments s = behindComments rest := by
  have hlength := comment?_length h
  obtain ⟨n, hn⟩ : ∃ n, s.length = n + 1 := ⟨s.length - 1, by omega⟩
  have hrest := commentsFrom_eq (show rest.length ≤ n by omega)
  rw [comments, behindComments, hn]
  simp only [commentsFrom, h, hrest, and_self]

/-- What holds of a text without a comment, and of one with a first comment if it holds of the rest, holds of all. -/
theorem comments_induction {motive : List Char → Prop} (none : ∀ s, comment? s = none → motive s)
    (some : ∀ s k rest, comment? s = some (k, rest) → motive rest → motive s) (s : List Char) : motive s := by
  induction hn : s.length using Nat.strongRecOn generalizing s with
  | ind n ih =>
    cases hk : comment? s with
    | none => exact none s hk
    | some p => exact some s p.1 p.2 hk (ih _ (hn ▸ comment?_length hk) _ rfl)

theorem comment?_append {s k rest : List Char} (h : comment? s = some (k, rest)) (t : List Char) :
    comment? (s ++ t) = some (k, rest ++ t) := by
  obtain ⟨gap, content, hopen, hclose, rfl, rfl⟩ := comment?_eq_some h
  have hopen' := cut_append_right hopen (content ++ (commentClose ++ (rest ++ t)))
  have hclose' := cut_append_right hclose (rest ++ t)
  simp only [List.append_assoc] at hopen' hclose' ⊢
  simp [comment?, hopen', hclose']

/-- The comments of a text that closes them and stands apart from what follows. -/
theorem comments_append {s t : List Char} (hs : closesComments s = true) (hapart : Apart commentOpen s t) :
    comments (s ++ t) = comments s ++ comments t := by
  induction s using comments_induction with
  | none s hk =>
    have hnone : occurs commentOpen s = false := by
      rw [closesComments, (comments_of_none hk).2] at hs
      simpa using hs
    have hfirst : comment? (s ++ t) = comment? t := by
      rw [comment?, hapart.cut_eq hnone, comment?]
      cases cut commentOpen t <;> rfl
    rw [(comments_of_none hk).1, List.nil_append]
    cases ht : comment? t with
    | none => rw [(comments_of_none ht).1, (comments_of_none (hfirst.trans ht)).1]
    | some p => rw [(comments_of_some ht).1, (comments_of_some (hfirst.trans ht)).1]
  | some s k rest hk ih =>
    have hrest : rest <:+ s := by
      obtain ⟨gap, content, -, -, -, rfl⟩ := comment?_eq_some hk
      exact (List.suffix_append k rest).trans (List.suffix_append gap _)
    rw [closesComments, (comments_of_some hk).2] at hs
    rw [(comments_of_some hk).1, (comments_of_some (comment?_append hk t)).1, ih hs (hapart.of_suffix hrest),
      List.cons_append]

/-! ## Texts in order -/

/-- The texts stand in `s` one after the other. -/
inductive InOrder : List (List Char) → List Char → Prop
  | nil {s : List Char} : InOrder [] s
  | cons {k : List Char} {ks : List (List Char)} {rest : List Char} (gap : List Char) (h : InOrder ks rest) :
    InOrder (k :: ks) (gap ++ (k ++ rest))

namespace InOrder

variable {ks ks' : List (List Char)} {s s' : List Char}

theorem append_left (h : InOrder ks s) (front : List Char) : InOrder ks (front ++ s) := by
  cases h with
  | nil => exact .nil
  | cons gap h =>
    rw [← List.append_assoc]
    exact .cons (front ++ gap) h

theorem append (h : InOrder ks s) (h' : InOrder ks' s') : InOrder (ks ++ ks') (s ++ s') := by
  induction h with
  | nil => exact h'.append_left _
  | cons gap _ ih =>
    rw [List.cons_append, List.append_assoc, List.append_assoc]
    exact .cons gap ih

end InOrder

theorem inOrder_comments (s : List Char) : InOrder (comments s) s := by
  induction s using comments_induction with
  | none s hk =>
    rw [(comments_of_none hk).1]
    exact .nil
  | some s k rest hk ih =>
    obtain ⟨gap, content, -, -, -, hs⟩ := comment?_eq_some hk
    rw [(comments_of_some hk).1, hs]
    exact .cons gap ih

/-! ## Comments of pieces -/

/-- The comments of a piece. What stands in a start tag is no comment. -/
def Piece.comments : Piece → List (List Char)
  | .start _ => []
  | p => Html.comments p.text

/-- Whether a piece closes the comments that it opens. A start tag opens none. -/
def Piece.closesComments : Piece → Bool
  | .start tag => !occurs commentOpen tag.text
  | p => Html.closesComments p.text

def Document.comments (d : Document) : List (List Char) := d.pieces.flatMap Piece.comments

/-- Whether each piece of a document closes the comments that it opens. -/
def Document.closesComments (d : Document) : Bool := d.pieces.all Piece.closesComments

/-- An edit keeps the comments. -/
theorem inOrder_edit (d : Document) (write : Nat → StartTag → List Char) : InOrder d.comments (d.edit write) := by
  have hall : ∀ (ps : List Piece) (n : Nat), InOrder (ps.flatMap Piece.comments) (Document.editFrom write n ps) := by
    intro ps
    induction ps with
    | nil => exact fun _ => .nil
    | cons p ps ih =>
      intro n
      rw [List.flatMap_cons]
      cases p with
      | start tag => exact (ih (n + 1)).append_left (write n tag)
      | stop name text => exact (inOrder_comments text).append (ih n)
      | other text => exact (inOrder_comments text).append (ih n)
  exact hall d.pieces 1

/-! ## All comments -/

theorem through?_getLast? {skip : Nat} {close s text rest : List Char} {q : Char} (hclose : close.getLast? = some q)
    (h : through? skip close s = some (text, rest)) : text.getLast? = some q := by
  obtain ⟨front, before, -, -, rfl, -⟩ := through?_eq_some (fun hnil => by simp [hnil] at hclose) h
  simp [List.getLast?_append, hclose]

/-- A piece that is read whatever follows ends in `>`. -/
theorem Whole.getLast?_eq {p : Piece} (hw : Whole p) (hp : p.isStart = false) : p.text.getLast? = some '>' := by
  have hread := hw.read ['a']
  -- Something without an end would have gone on to the end of the text.
  have hends (q : Piece) : ([q], []) ≠ ([p], ['a']) := fun h => List.cons_ne_nil 'a' [] (Prod.mk.inj h).2.symm
  unfold readAngle at hread
  split at hread
  · rename_i text rest hspecial
    cases hread
    rw [special?] at hspecial
    split_ifs at hspecial
    all_goals exact through?_getLast? rfl (Option.some.inj hspecial)
  · exact absurd hread (hends _)
  · split at hread
    · unfold readStop at hread
      split at hread
      · exact absurd hread (hends _)
      · rename_i text rest hthrough
        cases hread
        exact through?_getLast? rfl hthrough
    · unfold readStart at hread
      split at hread
      · exact absurd hread (hends _)
      · split at hread
        · rw [startPieces_eq] at hread
          split at hread
          · split at hread
            · cases hread
            · cases hread
              cases hp
          · cases hread
            cases hp
        · cases hread
          exact List.getLast?_concat

theorem rawContent?_getLast? {name : String} {s content rest : List Char}
    (h : rawContent? name s = some (content, rest)) : content.getLast? = some '>' := by
  obtain ⟨⟨before, after⟩, -, hthrough⟩ := Option.bind_eq_some_iff.1 h
  exact through?_getLast? rfl hthrough

theorem comments_of_not_occurs {s : List Char} (h : occurs commentOpen s = false) :
    comments s = [] ∧ closesComments s = true := by
  have hcut : cut commentOpen s = none := by simpa [occurs] using h
  obtain ⟨hcomments, hbehind⟩ := comments_of_none (show comment? s = none by simp [comment?, hcut])
  exact ⟨hcomments, by rw [closesComments, hbehind, h]; rfl⟩

/-- No comment is opened across the end of a text that ends in `>`. -/
theorem apart_of_getLast? {s : List Char} (h : s.getLast? = some '>') (t : List Char) : Apart commentOpen s t :=
  .of_getLast? h (by decide)

theorem comments_startTag_append {tag : StartTag} {name attributes : List Char} (htag : tag.IsRead name attributes)
    (hc : (Piece.start tag).closesComments = true) (rest : List Char) : comments (tag.text ++ rest) = comments rest := by
  obtain ⟨hnone, hcloses⟩ := comments_of_not_occurs (show occurs commentOpen tag.text = false by
    simpa [Piece.closesComments] using hc)
  have hlast : tag.text.getLast? = some '>' := by
    rw [htag.text_eq_inner]
    exact List.getLast?_concat
  rw [comments_append hcloses (apart_of_getLast? hlast rest), hnone, List.nil_append]

/-- The comments of a text are those of its pieces, if each piece closes the comments that it opens. -/
theorem Scans.comments_eq {s : List Char} {ps : List Piece} (h : Scans s ps) (hc : ps.all Piece.closesComments = true) :
    comments s = ps.flatMap Piece.comments := by
  induction h with
  | nil => rfl
  | last ht => simp [Piece.comments, Piece.text]
  | @text c t rest ps hne ht hrest h ih =>
    rw [List.all_cons, Bool.and_eq_true] at hc
    have hnone : '<' ∉ c :: t := by simp [Ne.symm hne, ht]
    have hfirst : closesComments (c :: t) = true := hc.1
    rw [comments_append hfirst (.of_not_mem hnone), ih hc.2]
    rfl
  | @plain p rest ps hp hw h ih =>
    rw [List.all_cons, Bool.and_eq_true] at hc
    have hlast := hw.getLast?_eq hp
    cases p with
    | start tag => cases hp
    | _ =>
      rw [comments_append hc.1 (apart_of_getLast? hlast rest), ih hc.2]
      rfl
  | start htag hraw h ih =>
    rw [List.all_cons, Bool.and_eq_true] at hc
    rw [comments_startTag_append htag hc.1, ih hc.2]
    rfl
  | @raw tag name attributes content rest ps htag hraw hcontent h ih =>
    rw [List.all_cons, List.all_cons, Bool.and_eq_true, Bool.and_eq_true] at hc
    have hlast := rawContent?_getLast? (hcontent [])
    have hfirst : closesComments content = true := hc.2.1
    rw [comments_startTag_append htag hc.1, comments_append hfirst (apart_of_getLast? hlast rest), ih hc.2.2]
    rfl
  | unclosed htag hraw hnone h ih =>
    rw [List.all_cons, Bool.and_eq_true] at hc
    rw [comments_startTag_append htag hc.1, ih hc.2]
    rfl

theorem Document.comments_ofChars {html : List Char} (h : (Document.ofChars html).closesComments = true) :
    (Document.ofChars html).comments = Html.comments html :=
  ((scans_piecesFrom (Nat.le_refl html.length)).comments_eq h).symm

/-- What all programs but Outlook read stands between two comments. -/
example : let d := Document.parse "<body><!--[if !mso]><!--><p>a</p><!--<![endif]--></body>"
    d.closesComments = true ∧ d.comments = ["<!--[if !mso]><!-->".toList, "<!--<![endif]-->".toList] := by
  decide +kernel

/-- A text in a start tag is no comment, and the end of a comment may be found behind it. -/
example : let d := Document.parse "<p title=\"<!--\">a</p>-->"
    d.closesComments = false ∧ d.comments = [] ∧
      comments "<p title=\"<!--\">a</p>-->".toList = ["<!--\">a</p>-->".toList] := by
  decide +kernel

end EmailMarkup.Html
