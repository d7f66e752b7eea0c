import EmailMarkup.Proofs.Html.Rewritten
/-!
# Texts with the same tags

Two texts have the same tags if they are cut into the same pieces, but for the attributes of start tags and for what is
no tag (`SameTags`). They are read as the same elements then (`SameTags.tags_eq`). The rules put such texts together from
the front: what follows may be any text, if it is the same in both.
-/
namespace EmailMarkup.Html

open EmailMarkup.Text

def Document.tags (d : Document) : List String := d.elements.filterMap d.forest.tag?

/-- Texts that are cut into the same pieces, but for attributes and for what is no tag. -/
def SameTags (s s' : String) : Prop :=
  ∃ ps ps', Scans s.toList ps ∧ Scans s'.toList ps' ∧ ∀ n, Rewritten (fun _ _ _ => True) n ps ps'

theorem Rewritten.refl (ps : List Piece) (n : Nat) : Rewritten (fun _ _ _ => True) n ps ps := by
  induction ps generalizing n with
  | nil => exact .nil
  | cons p ps ih =>
    cases p with
    | start tag => exact .start rfl rfl trivial (ih _)
    | stop name text => exact .stop (ih _)
    | other text => exact .other (ih _)

namespace SameTags

variable {r r' : String}

theorem refl (s : String) : SameTags s s :=
  ⟨_, _, scans_piecesFrom (Nat.le_refl _), scans_piecesFrom (Nat.le_refl _), .refl _⟩

/-- Texts with the same tags are read as the same elements. -/
theorem tags_eq {s s' : String} (h : SameTags s s') : (Document.parse s).tags = (Document.parse s').tags := by
  obtain ⟨ps, ps', hscans, hscans', hrewritten⟩ := h
  have hpieces : (Document.parse s).pieces = ps := hscans.piecesFrom_eq (Nat.le_refl _)
  have hpieces' : (Document.parse s').pieces = ps' := hscans'.piecesFrom_eq (Nat.le_refl _)
  have halike : Forest.Alike (fun _ _ _ => True) (Document.parse s).forest (Document.parse s').forest := by
    refine Rewritten.alike (fun _ _ _ _ => trivial) (R := fun _ _ _ => True) ?_
    rw [Document.parse] at hpieces hpieces'
    rw [hpieces, hpieces']
    exact hrewritten 1
  have htag : (Document.parse s).forest.tag? = (Document.parse s').forest.tag? := funext halike.tag?_eq
  rw [Document.tags, Document.tags, Document.elements, Document.elements, halike.elements_eq, htag]

/-- Text between tags. -/
theorem text {u : String} (hu : '<' ∉ u.toList) (hr : r.toList.head? = some '<') (hr' : r'.toList.head? = some '<')
    (h : SameTags r r') : SameTags (u ++ r) (u ++ r') := by
  obtain ⟨ps, ps', hscans, hscans', hrewritten⟩ := h
  rw [SameTags, String.toList_append, String.toList_append]
  cases hchars : u.toList with
  | nil => exact ⟨ps, ps', hscans, hscans', hrewritten⟩
  | cons c t =>
    rw [hchars, List.mem_cons, not_or] at hu
    exact ⟨_, _, .text (Ne.symm hu.1) hu.2 (by simp [hr]) hscans, .text (Ne.symm hu.1) hu.2 (by simp [hr']) hscans',
      fun n => .other (hrewritten n)⟩

/-- Start tags of the same name. -/
theorem start {t t' : StartTag} {name attributes attributes' : List Char} (ht : t.IsRead name attributes)
    (ht' : t'.IsRead name attributes') (hclosed : t'.closed = t.closed) (hraw : t.isRaw = false) {u u' : String}
    (hu : u.toList = t.text) (hu' : u'.toList = t'.text) (h : SameTags r r') : SameTags (u ++ r) (u' ++ r') := by
  obtain ⟨ps, ps', hscans, hscans', hrewritten⟩ := h
  have hname : t'.name = t.name := by rw [ht'.name_eq, ht.name_eq]
  have hraw' : t'.isRaw = false := (StartTag.isRaw_congr hname hclosed).trans hraw
  rw [SameTags, String.toList_append, String.toList_append, hu, hu']
  exact ⟨_, _, .start ht hraw hscans, .start ht' hraw' hscans', fun n => .start hname hclosed trivial (hrewritten (n + 1))⟩

/-- An end tag. -/
theorem stop {u : String} {name : String} (hu : ∃ v, u.toList = '<' :: v)
    (hread : ∀ rest, readAngle (u.toList ++ rest) = ([.stop name u.toList], rest)) (h : SameTags r r') :
    SameTags (u ++ r) (u ++ r') := by
  obtain ⟨ps, ps', hscans, hscans', hrewritten⟩ := h
  have hwhole : Whole (.stop name u.toList) := ⟨hu, hread⟩
  rw [SameTags, String.toList_append, String.toList_append]
  exact ⟨_, _, .plain rfl hwhole hscans, .plain rfl hwhole hscans', fun n => .stop (hrewritten n)⟩

end SameTags

/-- A comment that does not end inside is one piece. -/
theorem whole_comment {body : List Char} (h : occurs ['-', '-', '>'] body = false) :
    Whole (.other (['<', '!', '-', '-'] ++ (body ++ ['-', '-', '>']))) where
  opens := ⟨_, rfl⟩
  read r := by
    have hcut : cut ['-', '-', '>'] (body ++ (['-', '-', '>'] ++ r)) = some (body, r) := cut_mark (by decide) h r
    have hthrough : through? 4 ['-', '-', '>'] (['<', '!', '-', '-'] ++ (body ++ (['-', '-', '>'] ++ r))) =
        some (['<', '!', '-', '-'] ++ (body ++ ['-', '-', '>']), r) := by
      change (cut ['-', '-', '>'] (body ++ (['-', '-', '>'] ++ r))).map _ = _
      rw [hcut]
      simp
    have hspecial : special? (['<', '!', '-', '-'] ++ (body ++ (['-', '-', '>'] ++ r))) =
        some (through? 4 ['-', '-', '>'] (['<', '!', '-', '-'] ++ (body ++ (['-', '-', '>'] ++ r)))) := rfl
    rw [Piece.text, List.append_assoc, List.append_assoc, readAngle, hspecial, hthrough]

/-- Comments, whatever is in them. -/
theorem SameTags.comment {body body' : String} (h : occurs ['-', '-', '>'] body.toList = false)
    (h' : occurs ['-', '-', '>'] body'.toList = false) {r r' : String} (hr : SameTags r r') :
    SameTags ("<!--" ++ (body ++ ("-->" ++ r))) ("<!--" ++ (body' ++ ("-->" ++ r'))) := by
  obtain ⟨ps, ps', hscans, hscans', hrewritten⟩ := hr
  have htext (body r : String) : ("<!--" ++ (body ++ ("-->" ++ r))).toList =
      ['<', '!', '-', '-'] ++ (body.toList ++ ['-', '-', '>']) ++ r.toList := by
    simp [String.toList_append]
  rw [SameTags, htext, htext]
  exact ⟨_, _, .plain rfl (whole_comment h) hscans, .plain rfl (whole_comment h') hscans', fun n => .other (hrewritten n)⟩

end EmailMarkup.Html
