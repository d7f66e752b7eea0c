import EmailMarkup.Proofs.Template.Decoded
import EmailMarkup.Proofs.Template.Piece
/-!
# Attribute values

In the value of an attribute a tab, a newline or a carriage return stands for a space, unless it is written as a
reference (`Part.normal`). Reading decodes the references first and then replaces the blanks, those that came out of
references too. So the value is the one of that rule exactly if no reference is to one of these blanks, and if no
reference has a plus in front of its digits (`readValue_normal_iff`).
-/
namespace EmailMarkup.Template

open EmailMarkup.Text

/-- The character for the part in a value: a literal blank becomes a space, a reference stands for its character. -/
def Part.normal : Part → Char
  | literal c => if c = '\t' ∨ c = '\n' ∨ c = '\r' then ' ' else c
  | reference _ c => c

/-- The part is not a reference, or it is one of the grammar, and not to a blank that would become a space. -/
def Part.Lasting : Part → Prop
  | literal _ => True
  | reference name c => Denotes name c ∧ c ≠ '\t' ∧ c ≠ '\n' ∧ c ≠ '\r'

theorem normalBlank_eq_self_iff {c : Char} : normalBlank c = c ↔ c ≠ '\t' ∧ c ≠ '\n' ∧ c ≠ '\r' := by
  constructor
  · intro h
    refine ⟨?_, ?_, ?_⟩ <;> rintro rfl <;> exact absurd h (by decide)
  · exact normalBlank_of_ne

theorem Part.Accepted.lasting_iff {p : Part} (h : p.Accepted) : p.Lasting ↔ p.Valid ∧ normalBlank p.char = p.normal := by
  cases p with
  | literal c =>
    have hnormal : normalBlank c = (Part.literal c).normal := by simp [normalBlank, Part.normal, or_assoc]
    exact ⟨fun _ => ⟨h, hnormal⟩, fun _ => trivial⟩
  | reference name c => exact and_congr_right fun _ => normalBlank_eq_self_iff.symm

section

variable {q : Char} {r : List Char}

theorem attributeValue_eq_ok_iff (hangle : '<' ∉ r) {inside : List Char} {value : String} :
    attributeValue r inside = .ok value ↔ ∃ v, decode r = .ok v ∧ value = String.ofList (v.map normalBlank) := by
  rw [attributeValue, cut_char_eq_none hangle]
  cases decode r with
  | error what => simp
  | ok v => simp [eq_comm]

theorem readValue_eq_ok_iff (hq : q = '"' ∨ q = '\'') (hangle : '<' ∉ r) (hquote : q ∉ r) (rest : List Char)
    (x : String × List Char) : readValue (q :: (r ++ q :: rest)) = .ok x ↔ ∃ parts, MadeOf Part.Accepted r parts ∧
      x = (String.ofList (parts.map fun p => normalBlank p.char), rest) := by
  have hpast : readValue (q :: (r ++ q :: rest)) = attributeValue r (r ++ q :: rest) >>= fun value => .ok (value, rest) := by
    rw [readValue, if_pos (by simpa using hq), readUntil, cut_char hquote]
    rfl
  rw [hpast, bind_eq_ok]
  simp only [attributeValue_eq_ok_iff hangle, decode_eq_ok_iff, Except.ok.injEq]
  constructor
  · rintro ⟨_, ⟨_, ⟨parts, hparts, rfl⟩, rfl⟩, rfl⟩
    exact ⟨parts, hparts, by simp [Function.comp_def]⟩
  · rintro ⟨parts, hparts, rfl⟩
    exact ⟨_, ⟨_, ⟨parts, hparts, rfl⟩, rfl⟩, by simp [Function.comp_def]⟩

end

/-- A text between quotes has a value exactly if it is made of parts that can be read, and each of their characters that is
a tab, a newline or a carriage return becomes a space. That is the rule for attribute values, with the references of the
grammar, exactly if all parts are lasting. -/
theorem readValue_normal_iff {q : Char} (hq : q = '"' ∨ q = '\'') {r : List Char} (hangle : '<' ∉ r) (hquote : q ∉ r)
    (rest : List Char) :
    (∀ x, readValue (q :: (r ++ q :: rest)) = .ok x ↔ ∃ parts, MadeOf Part.Accepted r parts ∧
      x = (String.ofList (parts.map fun p => normalBlank p.char), rest)) ∧
    ((∀ x, readValue (q :: (r ++ q :: rest)) = .ok x ↔ ∃ parts, MadeOf Part.Valid r parts ∧
      x = (String.ofList (parts.map Part.normal), rest)) ↔
      ∀ parts, MadeOf Part.Accepted r parts → ∀ p ∈ parts, p.Lasting) := by
  have hread := readValue_eq_ok_iff hq hangle hquote rest
  refine ⟨hread, fun hnormal parts hparts => ?_, fun hlasting x => ?_⟩
  · -- the value read is the one that the rule gives, so the rule has the same parts, and the same character for each
    have heq := (hread _).2 ⟨parts, hparts, rfl⟩
    obtain ⟨parts', hparts', hvalue⟩ := (hnormal _).1 heq
    obtain rfl := hparts.unique hparts'.accepted
    have hsame := List.map_inj_left.1 (String.ofList_injective (Prod.mk.inj hvalue).1)
    intro p hp
    exact (hparts.1 p hp).lasting_iff.2 ⟨hparts'.1 p hp, hsame p hp⟩
  · have hboth {parts : List Part} (hparts : MadeOf Part.Accepted r parts) : MadeOf Part.Valid r parts ∧
        parts.map (fun p => normalBlank p.char) = parts.map Part.normal := by
      have hp (p : Part) (hp : p ∈ parts) := (hparts.1 p hp).lasting_iff.1 (hlasting parts hparts p hp)
      exact ⟨hparts.mono fun p hmem _ => (hp p hmem).1, List.map_congr_left fun p hmem => (hp p hmem).2⟩
    rw [hread]
    constructor
    · rintro ⟨parts, hparts, rfl⟩
      obtain ⟨hvalid, hsame⟩ := hboth hparts
      exact ⟨parts, hvalid, by rw [hsame]⟩
    · rintro ⟨parts, hvalid, rfl⟩
      exact ⟨parts, hvalid.accepted, by rw [(hboth hvalid.accepted).2]⟩

def tabbedParts : List Part := [.literal 'a', .literal '\t', .reference "amp".toList '&', .reference "#65".toList 'A']

theorem valid_tabbedParts : ∀ p ∈ tabbedParts, p.Valid ∧ p.Lasting := by
  have hamp : Denotes "amp".toList '&' := .name (by decide)
  have hletter : Denotes "#65".toList 'A' :=
    .decimal (.snoc (@Numeral.digit 10 '6' 6 (by decide)) (show IsDigitFor 10 '5' 5 by decide)) ⟨by decide, by decide⟩
  simp only [tabbedParts, List.forall_mem_cons]
  have hplain : 'a' ≠ '&' ∧ '\t' ≠ '&' := by decide
  exact ⟨⟨hplain.1, trivial⟩, ⟨hplain.2, trivial⟩, ⟨hamp, hamp, by decide⟩, ⟨hletter, hletter, by decide⟩, by simp⟩

theorem readValue_normal_iff_tabbedParts : MadeOf Part.Valid "a\t&amp;&#65;".toList tabbedParts ∧
    readValue ('"' :: ("a\t&amp;&#65;".toList ++ '"' :: ['>'])) = .ok ("a &A", ['>']) := by
  have hvalid : MadeOf Part.Valid "a\t&amp;&#65;".toList tabbedParts := ⟨fun p hp => (valid_tabbedParts p hp).1, by decide⟩
  refine ⟨hvalid, ((readValue_normal_iff (.inl rfl) (by decide) (by decide) ['>']).2.2 ?_ _).2 ⟨_, hvalid, by decide⟩⟩
  intro parts hparts p hp
  obtain rfl := hparts.unique hvalid.accepted
  exact (valid_tabbedParts p hp).2

def newlineParts : List Part := [.literal 'x', .reference "#10".toList '\n', .literal 'y']

/-- The newline of a reference is kept by the rule, and is read as a space. -/
theorem readValue_newline_reference : MadeOf Part.Valid "x&#10;y".toList newlineParts ∧
    String.ofList (newlineParts.map Part.normal) = "x\ny" ∧
    readValue ('"' :: ("x&#10;y".toList ++ '"' :: ['>'])) = .ok ("x y", ['>']) := by
  have hnewline : Denotes "#10".toList '\n' :=
    .decimal (.snoc (@Numeral.digit 10 '1' 1 (by decide)) (show IsDigitFor 10 '0' 0 by decide)) ⟨by decide, by decide⟩
  have hplain : 'x' ≠ '&' ∧ 'y' ≠ '&' := by decide
  refine ⟨⟨?_, by decide⟩, by decide, by decide⟩
  simp only [newlineParts, List.forall_mem_cons]
  exact ⟨hplain.1, hnewline, hplain.2, by simp⟩

end EmailMarkup.Template
