import EmailMarkup.Proofs.Template.Blocks
import EmailMarkup.Proofs.Template.Respelled
import Mathlib.Data.List.Forall2
/-!
# Where reading stops

Reading stops at a place of the protected text. Protecting makes lines longer, but neither joins nor divides them: verbatim
marks and numeric references hold no newline (`Edited.forall₂_lines`). So the line of a parse error is a line of the
template, while its column counts the characters of the protected line, which may reach past the end of the author's line
by what was put into it (`parse_error_position`).
-/
namespace EmailMarkup

/-! ## Lines -/

namespace Text

/-- The lines of a text. -/
def lines (s : List Char) : List (List Char) := pieces (· == '\n') s

section

variable {s t u v w : List Char} {ws : List (List Char)}

theorem lines_newline (s : List Char) : lines ('\n' :: s) = [] :: lines s := by
  simp [lines, pieces]

theorem lines_cons {c : Char} (h : c ≠ '\n') (hs : lines s = w :: ws) : lines (c :: s) = (c :: w) :: ws := by
  rw [lines] at hs
  simp [lines, pieces, h, hs]

/-- Every text has a first line. -/
theorem exists_lines_cons (s : List Char) : ∃ w ws, lines s = w :: ws := by
  induction s with
  | nil => exact ⟨[], [], rfl⟩
  | cons c s ih =>
    obtain ⟨w, ws, hs⟩ := ih
    by_cases h : c = '\n'
    · exact ⟨[], lines s, by rw [h, lines_newline]⟩
    · exact ⟨c :: w, ws, lines_cons h hs⟩

theorem lines_append (hu : '\n' ∉ u) (hs : lines s = w :: ws) : lines (u ++ s) = (u ++ w) :: ws := by
  induction u with
  | nil => exact hs
  | cons c u ih =>
    rw [List.mem_cons, not_or] at hu
    exact lines_cons (Ne.symm hu.1) (ih hu.2)

theorem lines_append_newline (s t : List Char) : lines (s ++ '\n' :: t) = lines s ++ lines t := by
  induction s with
  | nil => exact lines_newline t
  | cons c s ih =>
    obtain ⟨w, ws, hs⟩ := exists_lines_cons s
    rw [hs, List.cons_append] at ih
    by_cases h : c = '\n'
    · rw [h, List.cons_append, lines_newline, lines_newline, ih, hs]
      rfl
    · rw [List.cons_append, lines_cons h ih, lines_cons h hs]
      rfl

theorem length_lines (s : List Char) : (lines s).length = s.count '\n' + 1 := by
  induction s with
  | nil => rfl
  | cons c s ih =>
    obtain ⟨w, ws, hs⟩ := exists_lines_cons s
    by_cases h : c = '\n'
    · rw [h, lines_newline, List.count_cons_self, List.length_cons, ih]
    · rw [lines_cons h hs, List.count_cons_of_ne h, ← ih, hs]
      rfl

/-- What stands behind the last newline of the front part of a text begins a line. -/
theorem exists_line (before after : List Char) : ∃ line, (lines (before ++ after))[before.count '\n']? = some line ∧
    (before.reverse.takeWhile (· != '\n')).length ≤ line.length := by
  obtain ⟨xs, r, hsplit, hxs, hr⟩ := exists_span (· != '\n') before.reverse
  have htake : before.reverse.takeWhile (· != '\n') = xs := by rw [hsplit, (span_append hxs hr).1]
  have hbefore : before = r.reverse ++ xs.reverse := by rw [← List.reverse_append, ← hsplit, List.reverse_reverse]
  have hplain : '\n' ∉ xs.reverse := by simpa using fun hm => absurd (hxs _ hm) (by decide)
  obtain ⟨w, ws, hafter⟩ := exists_lines_cons after
  have hline := lines_append hplain hafter
  refine ⟨xs.reverse ++ w, ?_, by simp [htake]⟩
  cases r with
  | nil =>
    rw [List.reverse_nil, List.nil_append] at hbefore
    rw [hbefore, List.count_eq_zero.2 hplain, hline]
    rfl
  | cons d r =>
    obtain rfl : d = '\n' := by simpa using hr
    have hcount : before.count '\n' = (lines r.reverse).length := by
      rw [hbefore, length_lines, List.count_append, List.count_eq_zero.2 hplain]
      simp
    have hlines : lines (before ++ after) = lines r.reverse ++ (xs.reverse ++ w) :: ws := by
      rw [hbefore, ← hline, ← lines_append_newline]
      simp
    rw [hlines, hcount, List.getElem?_append_right (Nat.le_refl _), Nat.sub_self]
    rfl

/-- The texts have the same newlines, and between them pieces that are related. -/
inductive Edited (L : List Char → List Char → Prop) : List Char → List Char → Prop
  | nil : Edited L [] []
  | newline {s t : List Char} (h : Edited L s t) : Edited L ('\n' :: s) ('\n' :: t)
  | edit {u v s t : List Char} (hu : '\n' ∉ u) (hv : '\n' ∉ v) (huv : L u v) (h : Edited L s t) : Edited L (u ++ s) (v ++ t)

namespace Edited

variable {L : List Char → List Char → Prop}

theorem copy (hL : ∀ c, L [c] [c]) (u : List Char) (h : Edited L s t) : Edited L (u ++ s) (u ++ t) := by
  induction u with
  | nil => exact h
  | cons c u ih =>
    by_cases hc : c = '\n'
    · rw [hc]
      exact ih.newline
    · have hplain : '\n' ∉ [c] := by simpa using Ne.symm hc
      exact edit (u := [c]) (v := [c]) hplain hplain (hL c) ih

/-- Line by line, the texts are related. -/
theorem forall₂_lines (hnil : L [] []) (happend : ∀ {u v s t}, L u v → L s t → L (u ++ s) (v ++ t)) (h : Edited L s t) :
    List.Forall₂ L (lines s) (lines t) := by
  induction h with
  | nil => exact .cons hnil .nil
  | @newline s t _ ih =>
    rw [lines_newline, lines_newline]
    exact .cons hnil ih
  | @edit u v s t hu hv huv _ ih =>
    obtain ⟨w, ws, hs⟩ := exists_lines_cons s
    obtain ⟨w', ws', ht⟩ := exists_lines_cons t
    rw [hs, ht] at ih
    rw [lines_append hu hs, lines_append hv ht]
    cases ih with
    | cons hfirst hothers => exact .cons (happend huv hfirst) hothers

end Edited

end

end Text

namespace Template

open EmailMarkup.Text

/-! ## Lines of a protected text -/

/-- How long a line may get when its references are respelled. -/
def width (line : List Char) : Nat := line.length + 2 * line.count '&'

/-- How wide a line may get when content is wrapped that begins, ends or is divided in it. -/
def room (line : List Char) : Nat := width line + 12 * line.count '>' + 3 * line.count '<'

theorem width_append (u v : List Char) : width (u ++ v) = width u + width v := by
  simp only [width, List.length_append, List.count_append]
  omega

theorem room_append (u v : List Char) : room (u ++ v) = room u + room v := by
  simp only [room, width_append, List.count_append]
  omega

theorem width_le_room (u : List Char) : width u ≤ room u := by
  unfold room
  omega

/-- The texts have the same lines, but for what wrapping adds. -/
def Wrapping (s t : List Char) : Prop := Edited (fun u v => width v ≤ room u) s t

section

variable {s t : List Char}

theorem Wrapping.copy (u : List Char) (h : Wrapping s t) : Wrapping (u ++ s) (u ++ t) :=
  Edited.copy (fun c => width_le_room [c]) u h

theorem wrapping_replaceAll (content : List Char) (h : Wrapping s t) :
    Wrapping (content ++ s) (replaceAll cdataClose cdataSplit content ++ t) := by
  refine substitute_induction (motive := fun content out => Wrapping (content ++ s) (out ++ t))
    (takesPiece_replaceAll (by decide) _) h ?_ ?_ content
  · intro c content _ ih
    exact ih.copy [c]
  · intro piece rest out _ hsome ih
    obtain ⟨rfl, rfl⟩ := replaceStep_eq_some hsome
    rw [List.append_assoc, List.append_assoc]
    exact .edit (by decide) (by decide) (by decide) ih

/-- Content is wrapped between the start tag and the end tag that it stands between. -/
theorem wrapping_content (content : List Char) (h : Wrapping s t) (hclose : Wrapping s (cdataClose ++ t)) :
    Wrapping ('>' :: (content ++ s)) ('>' :: (wrapContent content ++ t)) := by
  rcases wrapContent_cases content with heq | heq
  · rw [heq]
    exact (h.copy content).copy ['>']
  · have hopen := Edited.edit (u := ['>']) (v := '>' :: cdataOpen) (by decide) (by decide) (by decide)
      (wrapping_replaceAll content hclose)
    rw [heq]
    simpa [Wrapping] using hopen

/-- A line has room for an end mark of verbatim text before a tag that begins in it. -/
theorem Wrapping.close (h : Wrapping s t) : Wrapping ('<' :: s) (cdataClose ++ '<' :: t) :=
  Edited.edit (u := ['<']) (v := cdataClose ++ ['<']) (by decide) (by decide) (by decide) h

end

/-- Wrapping content keeps the lines. The induction also says that there is room for the end mark of verbatim text in
front of a tag, for the mark belongs to the line of the end tag, and not to that of the start tag. -/
theorem wrapping_wrapEnding (s : List Char) : Wrapping s (wrapEnding s) := by
  have hboth : Wrapping s (wrapEnding s) ∧ ∀ r, s = '<' :: r → Wrapping s (cdataClose ++ wrapEnding s) := by
    refine wrapEnding_induction
      (motive := fun s t => Wrapping s t ∧ ∀ r, s = '<' :: r → Wrapping s (cdataClose ++ t)) ?_ ?_ ?_ s
    · exact ⟨.nil, fun r h => by cases h⟩
    · intro c s _ ih
      refine ⟨ih.1.copy [c], fun r h => ?_⟩
      rw [(List.cons.inj h).1]
      exact ih.1.close
    · intro tag head content rest hblock ih
      obtain ⟨r, hr⟩ := exists_of_closesTag hblock.ends
      have hbody := (wrapping_content content ih.1 (ih.2 r hr)).copy head
      exact ⟨hbody.copy ['<'], fun _ _ => hbody.close⟩
  exact hboth.1

/-- The names of the table are at most two characters shorter than their numbers. -/
theorem length_numericReference {name : List Char} {code : Nat} (h : entityCode? (String.ofList name) = some code) :
    (numericReference code).length ≤ name.length + 4 := by
  have hlength := entityCode?_forall (p := fun name code => (numericReference code).length ≤ name.toList.length + 4)
    (by decide +kernel) h
  simpa using hlength

/-- Turning names into code points keeps the lines. -/
theorem edited_replaceOutside (s : List Char) : Edited (fun u v => v.length ≤ width u) s (replaceOutside s) := by
  have hcopy (c : Char) : [c].length ≤ width [c] := by
    unfold width
    omega
  refine substitute_induction takesPiece_outsideStep .nil ?_ ?_ s
  · intro c s _ ih
    exact ih.copy hcopy [c]
  · intro piece rest out _ hsome ih
    rcases outsideStep_eq_some hsome with ⟨rfl, -⟩ | ⟨name, code, hcode, rfl, rfl⟩
    · exact ih.copy hcopy out
    · have hplain {u : List Char} (hu : RefersTo code u) : '\n' ∉ u := hu.isReference.not_mem (by decide) (by decide)
      refine .edit (hplain (.inr ⟨name, hcode, rfl⟩)) (hplain (.inl rfl)) ?_ ih
      have hlength := length_numericReference hcode
      simp only [width, List.length_cons, List.length_append, List.count_cons_self]
      omega

theorem exists_getElem?_of_forall₂ {L : List Char → List Char → Prop} {ls ls' : List (List Char)}
    (h : List.Forall₂ L ls ls') {i : Nat} {line' : List Char} (hline : ls'[i]? = some line') :
    ∃ line, ls[i]? = some line ∧ L line line' := by
  obtain ⟨hi', rfl⟩ := List.getElem?_eq_some_iff.1 hline
  have hi : i < ls.length := by rw [h.length_eq]; exact hi'
  exact ⟨ls[i], List.getElem?_eq_getElem hi, h.get hi hi'⟩

/-- A line of the protected text has room in the line of the template. -/
theorem exists_line_of_protect {s line' : List Char} {i : Nat} (h : (lines (protect s))[i]? = some line') :
    ∃ line, (lines s)[i]? = some line ∧ line'.length ≤ room line := by
  have hwrapped : List.Forall₂ (fun u v => width v ≤ room u) (lines s) (lines (wrapEnding s)) := by
    refine Edited.forall₂_lines (Nat.le_refl 0) (fun h h' => ?_) (wrapping_wrapEnding s)
    rw [width_append, room_append]
    exact Nat.add_le_add h h'
  have hrespelled : List.Forall₂ (fun u v => v.length ≤ width u) (lines (wrapEnding s)) (lines (protect s)) := by
    refine Edited.forall₂_lines (Nat.le_refl 0) (fun h h' => ?_) (edited_replaceOutside (wrapEnding s))
    rw [width_append, List.length_append]
    exact Nat.add_le_add h h'
  obtain ⟨wrapped, hwline, hwidth⟩ := exists_getElem?_of_forall₂ hrespelled h
  obtain ⟨line, hline, hroom⟩ := exists_getElem?_of_forall₂ hwrapped hwline
  exact ⟨line, hline, Nat.le_trans hwidth hroom⟩

/-! ## Positions of parse errors -/

/-- A position is given in the protected text. -/
theorem exists_position_eq {maxDepth : Nat} {source : String} {fault : Fault} {p : Position}
    (h : parse maxDepth source = .error fault) (hp : fault.position? = some p) :
    ∃ before after, protect source.toList = before ++ after ∧ p = .after before := by
  unfold parse ofChars at h
  split at h
  · cases h
    cases hp
  · unfold ofProtected at h
    split at h
    · cases h
    · rename_i stop _
      cases h
      cases stop with
      | malformed what rest =>
        obtain rfl := Option.some.inj hp
        exact ⟨_, _, (List.take_append_drop _ _).symm, rfl⟩
      | wrongRoot tag => cases hp
      | tooDeep => cases hp

/-- A parse error gives a line of the template. Its column is one of that line as it is protected, which may be longer. -/
theorem parse_error_position {maxDepth : Nat} {source : String} {fault : Fault} {p : Position}
    (h : parse maxDepth source = .error fault) (hp : fault.position? = some p) :
    1 ≤ p.line ∧ p.line ≤ (lines source.toList).length ∧ 1 ≤ p.column ∧
      ∃ line line', (lines source.toList)[p.line - 1]? = some line ∧
        (lines (protect source.toList))[p.line - 1]? = some line' ∧ p.column ≤ line'.length + 1 ∧
        line'.length ≤ line.length + 12 * line.count '>' + 3 * line.count '<' + 2 * line.count '&' := by
  obtain ⟨before, after, htext, rfl⟩ := exists_position_eq h hp
  obtain ⟨line', hline', hcolumn⟩ := exists_line before after
  rw [← htext] at hline'
  obtain ⟨line, hline, hroom⟩ := exists_line_of_protect hline'
  have hindex : (Position.after before).line - 1 = before.count '\n' := rfl
  have hlt : before.count '\n' < (lines source.toList).length := (List.getElem?_eq_some_iff.1 hline).1
  refine ⟨Nat.le_add_left 1 _, hlt, Nat.le_add_left 1 _, line, line', ?_, ?_, Nat.add_le_add_right hcolumn 1, ?_⟩
  · rw [hindex, hline]
  · rw [hindex, hline']
  · unfold room width at hroom
    omega

def unclosedSource : String := "<mjml>\n&nbsp;<mj-text>a</mj-text>"

theorem parse_error_position_second :
    parse defaultMaxDepth unclosedSource = .error (.malformed .unclosedElement ⟨2, 39⟩) ∧
      2 ≤ (lines unclosedSource.toList).length ∧
      ∃ line line', (lines unclosedSource.toList)[1]? = some line ∧
        (lines (protect unclosedSource.toList))[1]? = some line' ∧ 39 ≤ line'.length + 1 ∧
        line'.length ≤ line.length + 12 * line.count '>' + 3 * line.count '<' + 2 * line.count '&' := by
  have hparse : parse defaultMaxDepth unclosedSource = .error (.malformed .unclosedElement ⟨2, 39⟩) := rfl
  obtain ⟨-, hline, -, hcolumn⟩ := parse_error_position hparse rfl
  exact ⟨hparse, hline, hcolumn⟩

/-- The column may lie behind the end of the line: this one has 26 characters. -/
theorem parse_error_past_end :
    parse defaultMaxDepth "<mjml><mj-text>a</mj-text>" = .error (.malformed .unclosedElement ⟨1, 39⟩) ∧
      (lines "<mjml><mj-text>a</mj-text>".toList).map List.length = [26] :=
  ⟨rfl, by decide +kernel⟩

end Template

end EmailMarkup
