import EmailMarkup.Proofs.Text.Blank
import EmailMarkup.Render.Content
import Mathlib.Data.List.Chain
/-!
# Text keeps its content

The content of a text is read as tags and what stands between them (`runs_spec`), and normalising it changes the blanks
between the tags only (`writeRuns_eq`). So nothing but blanks is lost or added, all tags come out as they were, and the
result is normal already: a second time nothing changes (`flow_keeps_content`).
-/
namespace EmailMarkup.Render

open EmailMarkup.Text

/-! ## Runs of blanks -/

/-- The characters that are no blanks. -/
def visible (s : List Char) : List Char := s.filter fun c => !isAsciiBlank c

@[simp] theorem visible_append (s t : List Char) : visible (s ++ t) = visible s ++ visible t := List.filter_append s t

theorem visible_eq_nil_iff {s : List Char} : visible s = [] ↔ s.all isAsciiBlank = true := by
  simp [visible, List.filter_eq_nil_iff]

theorem mem_visible {s : List Char} {c : Char} (hc : isAsciiBlank c = false) : c ∈ visible s ↔ c ∈ s := by
  simp [visible, hc]

/-- Texts that differ in blanks have the same other characters. -/
theorem mem_iff_of_visible_eq {s t : List Char} (h : visible s = visible t) {c : Char} (hc : isAsciiBlank c = false) :
    c ∈ s ↔ c ∈ t := by
  rw [← mem_visible hc, h, mem_visible hc]

theorem visible_collapseFrom (afterBlank : Bool) (s : List Char) : visible (collapseFrom afterBlank s) = visible s := by
  fun_induction collapseFrom afterBlank s with
  | case1 => rfl
  | case2 c s hc ih => simpa [visible, hc] using ih
  | case3 afterBlank c s hc hfirst ih =>
    have hspace : isAsciiBlank ' ' = true := rfl
    simpa [visible, hc, hspace] using ih
  | case4 afterBlank c s hc ih => simpa [visible, hc] using ih

theorem visible_collapse (s : List Char) : visible (collapse s) = visible s := visible_collapseFrom false s

theorem all_blank_collapse (s : List Char) : (collapse s).all isAsciiBlank = s.all isAsciiBlank := by
  rw [Bool.eq_iff_iff, ← visible_eq_nil_iff, ← visible_eq_nil_iff, visible_collapse]

/-- Every blank is a space, and no two of them stand together. -/
structure Collapsed (s : List Char) : Prop where
  spaces : ∀ c ∈ s, isAsciiBlank c = true → c = ' '
  single : s.IsChain fun c d => isAsciiBlank c = true → isAsciiBlank d = false

theorem Collapsed.part {s t : List Char} (h : Collapsed s) (ht : t <:+: s) : Collapsed t := by
  refine ⟨fun c hc => h.spaces c (ht.subset hc), ?_⟩
  obtain ⟨pre, post, rfl⟩ := ht
  exact h.single.left_of_append.right_of_append

theorem collapsed_collapseFrom (afterBlank : Bool) (s : List Char) : Collapsed (collapseFrom afterBlank s) ∧
    (afterBlank = true → ∀ c ∈ (collapseFrom afterBlank s).head?, isAsciiBlank c = false) := by
  fun_induction collapseFrom afterBlank s with
  | case1 => exact ⟨⟨by simp, .nil⟩, by simp⟩
  | case2 c s hc ih => exact ih
  | case3 afterBlank c s hc hfirst ih =>
    obtain ⟨hrest, hhead⟩ := ih
    refine ⟨⟨List.forall_mem_cons.2 ⟨fun _ => rfl, hrest.spaces⟩, ?_⟩, fun h => absurd h hfirst⟩
    exact List.isChain_cons.2 ⟨fun d hd _ => hhead rfl d hd, hrest.single⟩
  | case4 afterBlank c s hc ih =>
    refine ⟨⟨List.forall_mem_cons.2 ⟨fun h => absurd h hc, ih.1.spaces⟩, ?_⟩, fun _ => by simpa using hc⟩
    exact List.isChain_cons.2 ⟨fun _ _ h => absurd h hc, ih.1.single⟩

theorem Collapsed.collapseFrom_eq {s : List Char} (h : Collapsed s) {afterBlank : Bool}
    (hhead : afterBlank = true → ∀ c ∈ s.head?, isAsciiBlank c = false) : collapseFrom afterBlank s = s := by
  induction s generalizing afterBlank with
  | nil => rfl
  | cons c s ih =>
    have hrest : Collapsed s := h.part (List.suffix_cons c s).isInfix
    by_cases hc : isAsciiBlank c = true
    · have hfirst : afterBlank = false := by
        cases afterBlank with
        | false => rfl
        | true => simpa [hc] using hhead rfl c rfl
      have hnext := (List.isChain_cons.1 h.single).1
      rw [collapseFrom, if_pos hc, hfirst, if_neg Bool.false_ne_true, ih hrest fun _ d hd => hnext d hd hc,
        h.spaces c List.mem_cons_self hc]
    · rw [collapseFrom, if_neg hc, ih hrest (by simp)]

theorem Collapsed.collapse_eq {s : List Char} (h : Collapsed s) : collapse s = s := h.collapseFrom_eq (by simp)

theorem collapsed_collapse (s : List Char) : Collapsed (collapse s) := (collapsed_collapseFrom false s).1

theorem collapse_ne_nil {s : List Char} (h : s ≠ []) : collapse s ≠ [] := by
  obtain ⟨c, s, rfl⟩ := List.exists_cons_of_ne_nil h
  rw [collapse, collapseFrom]
  split <;> simp

theorem head?_collapse {s : List Char} (h : ∀ c ∈ s.head?, isAsciiBlank c = false) : (collapse s).head? = s.head? := by
  cases s with
  | nil => rfl
  | cons c s => simp [collapse, collapseFrom, h c rfl]

theorem collapseFrom_concat {c : Char} (hc : isAsciiBlank c = false) (afterBlank : Bool) (s : List Char) :
    collapseFrom afterBlank (s ++ [c]) = collapseFrom afterBlank s ++ [c] := by
  fun_induction collapseFrom afterBlank s with
  | case1 => simp [collapseFrom, hc]
  | case2 d s hd ih => simpa [collapseFrom, hd] using ih
  | case3 afterBlank d s hd hfirst ih => simpa [collapseFrom, hd, hfirst] using ih
  | case4 afterBlank d s hd ih => simpa [collapseFrom, hd] using ih

theorem getLast?_collapse {s : List Char} (h : ∀ c ∈ s.getLast?, isAsciiBlank c = false) :
    (collapse s).getLast? = s.getLast? := by
  rcases List.eq_nil_or_concat s with rfl | ⟨s, c, rfl⟩
  · rfl
  · rw [List.concat_eq_append] at h ⊢
    rw [collapse, collapseFrom_concat (h c (by simp))]
    simp

/-! ## Tags and what stands between them -/

def Run.chars : Run → List Char
  | .tag s => s
  | .text s => s

def joined (rs : List Run) : List Char := rs.flatMap Run.chars

@[simp] theorem joined_nil : joined [] = [] := rfl

@[simp] theorem joined_cons (r : Run) (rs : List Run) : joined (r :: rs) = r.chars ++ joined rs := List.flatMap_cons

/-- Runs as they are read off a text: no two texts follow each other, and a tag that is not closed is the last run. The
flag says whether the first run may be a text. -/
inductive Readable : Bool → List Run → Prop
  | nil {textFirst : Bool} : Readable textFirst []
  | unclosed {textFirst : Bool} {s : List Char} : '>' ∉ s → Readable textFirst [.tag ('<' :: s)]
  | tag {textFirst : Bool} {inner : List Char} {rs : List Run} : '>' ∉ inner → Readable true rs →
    Readable textFirst (.tag ('<' :: inner ++ ['>']) :: rs)
  | text {content : List Char} {rs : List Run} : content ≠ [] → '<' ∉ content → Readable false rs →
    Readable true (.text content :: rs)

namespace Readable

variable {textFirst : Bool} {rs : List Run}

theorem head?_joined (h : Readable false rs) : ∀ c ∈ (joined rs).head?, c = '<' := by
  cases h <;> simp [Run.chars, eq_comm]

/-- A text that begins with a tag. -/
theorem tagFirst (h : Readable true rs) (hhead : ∀ c ∈ (joined rs).head?, c = '<') : Readable false rs := by
  cases h with
  | nil => exact .nil
  | unclosed hs => exact .unclosed hs
  | tag hinner hrest => exact .tag hinner hrest
  | text hne hangle =>
    obtain ⟨c, content, rfl⟩ := List.exists_cons_of_ne_nil hne
    exact absurd (by simp [hhead c rfl]) hangle

theorem chars_ne_nil (h : Readable textFirst rs) : ∀ r ∈ rs, r.chars ≠ [] := by
  induction h with
  | nil => simp
  | unclosed => simp [Run.chars]
  | tag _ _ ih => exact List.forall_mem_cons.2 ⟨by simp [Run.chars], ih⟩
  | text hne _ _ ih => exact List.forall_mem_cons.2 ⟨hne, ih⟩

/-- Runs are read back from the text that they make up. -/
theorem runsFrom_joined (h : Readable textFirst rs) {fuel : Nat} (hfuel : (joined rs).length ≤ fuel) :
    runsFrom fuel (joined rs) = rs := by
  induction h generalizing fuel with
  | nil => cases fuel <;> rfl
  | @unclosed _ s hs =>
    cases fuel with
    | zero => simp [Run.chars] at hfuel
    | succ fuel => simp [Run.chars, runsFrom, cut_char_eq_none hs]
  | @tag _ inner rs hinner _ ih =>
    cases fuel with
    | zero => simp [Run.chars] at hfuel
    | succ fuel =>
      have hrest : (joined rs).length ≤ fuel := by
        simp [Run.chars] at hfuel
        omega
      simp [Run.chars, runsFrom, cut_char hinner, ih hrest]
  | @text content rs hne hangle hrest ih =>
    obtain ⟨c, content, rfl⟩ := List.exists_cons_of_ne_nil hne
    cases fuel with
    | zero => simp [Run.chars] at hfuel
    | succ fuel =>
      have hlength : (joined rs).length ≤ fuel := by
        simp [Run.chars] at hfuel
        omega
      have htext : ∀ d ∈ c :: content, (d != '<') = true := fun d hd => bne_iff_ne.2 (ne_of_mem_of_not_mem hd hangle)
      have hspan := span_append htext fun d hd => by simpa using hrest.head?_joined d hd
      have hc : c ≠ '<' := fun he => hangle (by simp [he])
      rw [joined_cons, Run.chars, runsFrom, hspan.1, hspan.2, ih hlength]
      · simp
      · simpa using hc

end Readable

/-- Every text is made up of runs. -/
theorem exists_readable (s : List Char) : ∃ rs, Readable true rs ∧ joined rs = s := by
  induction hn : s.length using Nat.strongRecOn generalizing s with
  | ind n ih =>
    -- The text begins with characters before a `<`, or with a tag, closed or not.
    obtain ⟨content, rest, rfl, hcontent, hrest⟩ := exists_span (fun d => d != '<') s
    cases content with
    | cons c content =>
      obtain ⟨rs, hrs, rfl⟩ := ih rest.length (by simp at hn; omega) rest rfl
      have htag : Readable false rs := hrs.tagFirst fun d hd => by simpa using hrest d hd
      refine ⟨.text (c :: content) :: rs, .text (by simp) (fun h => ?_) htag, by simp [Run.chars]⟩
      simpa using hcontent '<' h
    | nil =>
      cases rest with
      | nil => exact ⟨[], .nil, rfl⟩
      | cons c s =>
        obtain rfl : c = '<' := by simpa using hrest c rfl
        obtain ⟨inner, after, rfl, hinner, hafter⟩ := exists_span (fun d => d != '>') s
        have hinner : '>' ∉ inner := fun h => by simpa using hinner '>' h
        cases after with
        | nil => exact ⟨[.tag ('<' :: inner)], .unclosed hinner, by simp [Run.chars]⟩
        | cons d after =>
          obtain rfl : d = '>' := by simpa using hafter d rfl
          obtain ⟨rs, hrs, rfl⟩ := ih after.length (by simp at hn; omega) after rfl
          exact ⟨.tag ('<' :: inner ++ ['>']) :: rs, .tag hinner hrs, by simp [Run.chars]⟩

/-- A text is read as runs that make it up. -/
theorem runs_spec (s : List Char) : Readable true (runs s) ∧ joined (runs s) = s := by
  obtain ⟨rs, hrs, rfl⟩ := exists_readable s
  rw [runs, hrs.runsFrom_joined (Nat.le_refl _)]
  exact ⟨hrs, rfl⟩

/-! ## Normal runs -/

/-- A text between tags with its blanks collapsed. The flag says whether a line was ended last. -/
def settledText (afterLine : Bool) (content : List Char) : List Char :=
  if afterLine && content.all isAsciiBlank then ['\n'] else collapse content

/-- Runs with the blanks of their texts collapsed. -/
def settle : Bool → List Run → List Run
  | _, [] => []
  | _, .tag s :: rs => .tag s :: settle (isLineTag s) rs
  | afterLine, .text s :: rs => .text (settledText afterLine s) :: settle (afterLine && s.all isAsciiBlank) rs

/-- Writing runs changes their texts only. -/
theorem writeRuns_eq (afterLine : Bool) (rs : List Run) : writeRuns afterLine rs = joined (settle afterLine rs) := by
  fun_induction settle afterLine rs with
  | case1 => rfl
  | case2 _ s rs ih => rw [writeRuns, ih, joined_cons, Run.chars]
  | case3 afterLine s rs ih =>
    rw [writeRuns, joined_cons, ← ih, Run.chars, settledText, all_blank_collapse]
    cases s.all isAsciiBlank <;> cases afterLine <;> simp

section

variable {afterLine : Bool} {s : List Char}

theorem visible_settledText : visible (settledText afterLine s) = visible s := by
  unfold settledText
  split
  · rename_i h
    rw [Bool.and_eq_true] at h
    rw [visible_eq_nil_iff.2 h.2]
    rfl
  · exact visible_collapse s

theorem all_blank_settledText : (settledText afterLine s).all isAsciiBlank = s.all isAsciiBlank := by
  rw [Bool.eq_iff_iff, ← visible_eq_nil_iff, ← visible_eq_nil_iff, visible_settledText]

theorem settledText_settledText : settledText afterLine (settledText afterLine s) = settledText afterLine s := by
  rw [settledText, all_blank_settledText]
  split
  · rename_i h
    rw [settledText, if_pos h]
  · rename_i h
    rw [settledText, if_neg h, (collapsed_collapse s).collapse_eq]

theorem settledText_ne_nil (h : s ≠ []) : settledText afterLine s ≠ [] := by
  unfold settledText
  split
  · simp
  · exact collapse_ne_nil h

/-- A text with something visible is collapsed. -/
theorem settledText_of_mem {c : Char} (hc : c ∈ s) (hvisible : isAsciiBlank c = false) :
    settledText afterLine s = collapse s := by
  rw [settledText, if_neg]
  intro h
  rw [Bool.and_eq_true, List.all_eq_true] at h
  simpa [hvisible] using h.2 c hc

end

section

variable {textFirst : Bool} {rs : List Run}

theorem settle_settle (afterLine : Bool) (rs : List Run) : settle afterLine (settle afterLine rs) = settle afterLine rs := by
  fun_induction settle afterLine rs with
  | case1 => rfl
  | case2 _ s rs ih => rw [settle, ih]
  | case3 afterLine s rs ih => rw [settle, settledText_settledText, all_blank_settledText, ih]

theorem Readable.settle (h : Readable textFirst rs) (afterLine : Bool) : Readable textFirst (settle afterLine rs) := by
  induction h generalizing afterLine with
  | nil => exact .nil
  | unclosed hs => exact .unclosed hs
  | tag hinner _ ih => exact .tag hinner (ih _)
  | text hne hangle _ ih =>
    refine .text (settledText_ne_nil hne) (fun h => hangle ?_) (ih _)
    exact (mem_iff_of_visible_eq visible_settledText (by decide)).1 h

theorem visible_joined_settle (afterLine : Bool) (rs : List Run) :
    visible (joined (settle afterLine rs)) = visible (joined rs) := by
  fun_induction settle afterLine rs with
  | case1 => rfl
  | case2 _ s rs ih => simp [Run.chars, ih]
  | case3 afterLine s rs ih => simp [Run.chars, visible_settledText, ih]

/-- A visible character in front stays in front. -/
theorem head?_joined_settle (h : Readable textFirst rs) (hhead : ∀ c ∈ (joined rs).head?, isAsciiBlank c = false)
    (afterLine : Bool) : (joined (settle afterLine rs)).head? = (joined rs).head? := by
  cases h with
  | nil => rfl
  | unclosed => rfl
  | tag => rfl
  | text hne =>
    obtain ⟨c, content, rfl⟩ := List.exists_cons_of_ne_nil hne
    have hc : isAsciiBlank c = false := hhead c rfl
    have hfirst := head?_collapse (s := c :: content) (by simpa using hc)
    simp [settle, Run.chars, settledText_of_mem List.mem_cons_self hc, hfirst]

/-- A visible character at the end stays at the end. -/
theorem getLast?_joined_settle (h : Readable textFirst rs) (hlast : ∀ c ∈ (joined rs).getLast?, isAsciiBlank c = false)
    (afterLine : Bool) : (joined (settle afterLine rs)).getLast? = (joined rs).getLast? := by
  induction h generalizing afterLine with
  | nil => rfl
  | unclosed => rfl
  | tag _ _ ih =>
    rw [joined_cons, List.getLast?_append] at hlast
    rw [settle, joined_cons, joined_cons, List.getLast?_append, List.getLast?_append, ih fun c hc => hlast c ?_]
    rw [Option.mem_def.1 hc]
    rfl
  | @text content rs hne _ _ ih =>
    rw [joined_cons, List.getLast?_append] at hlast
    rw [settle, joined_cons, joined_cons, List.getLast?_append, List.getLast?_append, ih fun c hc => hlast c ?_]
    · cases hrest : (joined rs).getLast? with
      | some c => rfl
      | none =>
        -- Nothing follows, so the last character is one of this text.
        rw [hrest, Option.none_or, Run.chars] at hlast
        have hvisible := hlast _ (List.getLast?_eq_some_getLast hne)
        rw [Option.none_or, Option.none_or, Run.chars, Run.chars, settledText_of_mem (List.getLast_mem hne) hvisible,
          getLast?_collapse hlast]
    · rw [Option.mem_def.1 hc]
      rfl

end

/-! ## What is seen from a tag -/

section

variable {α : Type} {look : List Char → Option α}

/-- What is seen from each place of a text. -/
def sights (look : List Char → Option α) : List Char → List α
  | [] => []
  | c :: s => (look (c :: s)).toList ++ sights look s

/-- What is seen from the tags among runs. -/
def Run.sights (look : List Char → Option α) : Run → List α
  | .tag s => Render.sights look s
  | .text _ => []

theorem flatMap_sights_settle (afterLine : Bool) (rs : List Run) :
    (settle afterLine rs).flatMap (Run.sights look) = rs.flatMap (Run.sights look) := by
  fun_induction settle afterLine rs with
  | case1 => rfl
  | case2 _ s rs ih => rw [List.flatMap_cons, ih, List.flatMap_cons]
  | case3 afterLine s rs ih => rw [List.flatMap_cons, ih, List.flatMap_cons, Run.sights, Run.sights]

/-- Something is seen from a `<` only, and not beyond the next `>`. -/
structure SeenInTag (look : List Char → Option α) : Prop where
  angle : ∀ c s, c ≠ '<' → look (c :: s) = none
  closed : ∀ s rest, '>' ∈ s → look (s ++ rest) = look s

namespace SeenInTag

theorem sights_text (h : SeenInTag look) {content : List Char} (hangle : '<' ∉ content) (rest : List Char) :
    sights look (content ++ rest) = sights look rest := by
  induction content with
  | nil => rfl
  | cons c content ih =>
    rw [List.mem_cons, not_or] at hangle
    rw [List.cons_append, sights, h.angle c _ (Ne.symm hangle.1), ih hangle.2]
    rfl

theorem sights_tag (h : SeenInTag look) (s rest : List Char) :
    sights look (s ++ '>' :: rest) = sights look (s ++ ['>']) ++ sights look rest := by
  induction s with
  | nil => simp [sights, h.angle '>' _ (by decide)]
  | cons c s ih =>
    have hclosed : look (c :: (s ++ '>' :: rest)) = look (c :: (s ++ ['>'])) := by
      simpa using h.closed (c :: (s ++ ['>'])) rest (by simp)
    rw [List.cons_append, sights, hclosed, ih, List.cons_append, sights, List.append_assoc]

/-- All that is seen is seen from the tags. -/
theorem sights_joined (h : SeenInTag look) {textFirst : Bool} {rs : List Run} (hrs : Readable textFirst rs) :
    sights look (joined rs) = rs.flatMap (Run.sights look) := by
  induction hrs with
  | nil => rfl
  | unclosed => simp [Run.chars, Run.sights]
  | @tag _ inner rs _ _ ih =>
    have htag := h.sights_tag ('<' :: inner) (joined rs)
    rw [ih] at htag
    simpa [Run.chars, Run.sights] using htag
  | text _ hangle _ ih =>
    rw [joined_cons, Run.chars, h.sights_text hangle, ih, List.flatMap_cons, Run.sights, List.nil_append]

end SeenInTag

end

theorem writeRuns_runs_runs (afterLine : Bool) (s : List Char) :
    writeRuns afterLine (runs (writeRuns afterLine (runs s))) = writeRuns afterLine (runs s) := by
  have hrs := (runs_spec s).1.settle afterLine
  have hruns : runs (joined (settle afterLine (runs s))) = settle afterLine (runs s) := hrs.runsFrom_joined (Nat.le_refl _)
  rw [writeRuns_eq, writeRuns_eq, hruns, settle_settle]

theorem visible_writeRuns_runs (afterLine : Bool) (s : List Char) : visible (writeRuns afterLine (runs s)) = visible s := by
  rw [writeRuns_eq, visible_joined_settle, (runs_spec s).2]

theorem trimmed_writeRuns_runs {s : List Char} (h : Trimmed isAsciiBlank s) (afterLine : Bool) :
    Trimmed isAsciiBlank (writeRuns afterLine (runs s)) := by
  obtain ⟨hread, hjoined⟩ := runs_spec s
  have hhead : ∀ c ∈ (joined (runs s)).head?, isAsciiBlank c = false := by rw [hjoined]; exact h.head
  have hlast : ∀ c ∈ (joined (runs s)).getLast?, isAsciiBlank c = false := by rw [hjoined]; exact h.last
  rw [writeRuns_eq]
  constructor
  · rwa [head?_joined_settle hread hhead]
  · rwa [getLast?_joined_settle hread hlast]

theorem SeenInTag.sights_writeRuns_runs {α : Type} {look : List Char → Option α} (h : SeenInTag look) (afterLine : Bool)
    (s : List Char) : sights look (writeRuns afterLine (runs s)) = sights look s := by
  obtain ⟨hread, hjoined⟩ := runs_spec s
  rw [writeRuns_eq, h.sights_joined (hread.settle afterLine), flatMap_sights_settle, ← h.sights_joined hread, hjoined]

/-! ## Tags and block elements -/

/-- The text from a `<` in front to the next `>`. -/
def tagInFront? : List Char → Option (List Char)
  | '<' :: s => (cut ['>'] s).map fun p => '<' :: p.1 ++ ['>']
  | _ => none

/-- The texts from each `<` to the next `>`, in order. -/
def tagsIn (s : List Char) : List (List Char) := sights tagInFront? s

theorem tagInFront?_cons_of_ne {c : Char} (hc : c ≠ '<') (s : List Char) : tagInFront? (c :: s) = none := by
  unfold tagInFront?
  split
  · rename_i heq
    exact absurd (List.cons.inj heq).1 hc
  · rfl

theorem tagInFront?_seenInTag : SeenInTag tagInFront? where
  angle c s hc := tagInFront?_cons_of_ne hc s
  closed s rest hs := by
    cases s with
    | nil => simp at hs
    | cons c s =>
      by_cases hc : c = '<'
      · subst hc
        have hmem : '>' ∈ s := by simpa using hs
        obtain ⟨inner, after, rfl, hinner⟩ := List.eq_append_cons_of_mem hmem
        simp [tagInFront?, cut_char hinner]
      · rw [List.cons_append, tagInFront?_cons_of_ne hc, tagInFront?_cons_of_ne hc]

/-- Whether the start tag of a block element stands in front. -/
def blockInFront? (s : List Char) : Option Unit :=
  if blockElements.any fun name => startsWith ('<' :: name.toList) (s.map Char.toLower) then some () else none

theorem blockInFront?_seenInTag : SeenInTag blockInFront? where
  angle c s hc := by
    have hlower : '<' ≠ c.toLower := fun h => hc ((toLower_eq_iff (by decide) (by decide)).1 h.symm)
    simp [blockInFront?, startsWith, strip?_cons_of_ne hlower]
  closed s rest hs := by
    have hmem : '>' ∈ s.map Char.toLower := List.mem_map.2 ⟨'>', hs, by decide⟩
    have hnames : ∀ name ∈ blockElements, '>' ∉ '<' :: name.toList := by decide
    have hany : (blockElements.any fun name => startsWith ('<' :: name.toList) ((s ++ rest).map Char.toLower)) =
        blockElements.any fun name => startsWith ('<' :: name.toList) (s.map Char.toLower) := by
      rw [Bool.eq_iff_iff, List.any_eq_true, List.any_eq_true]
      refine exists_congr fun name => and_congr_right fun hname => ?_
      rw [List.map_append, startsWith_append_of_mem hmem (hnames name hname)]
    rw [blockInFront?, hany, blockInFront?]

theorem hasBlock_eq (s : List Char) : hasBlock s = !(sights blockInFront? s).isEmpty := by
  induction s with
  | nil => decide
  | cons c s ih =>
    have hcons : hasBlock (c :: s) = ((blockElements.any fun name => startsWith ('<' :: name.toList)
        ((c :: s).map Char.toLower)) || hasBlock s) := by
      rw [Bool.eq_iff_iff]
      simp only [hasBlock, List.map_cons, occurs_cons, List.any_eq_true, Bool.or_eq_true, and_or_left, exists_or]
    rw [hcons, ih, sights, blockInFront?]
    split <;> simp_all

/-! ## The whole text -/

theorem visible_trimBoth (s : List Char) : visible (trimBoth isAsciiBlank s) = visible s := by
  obtain ⟨pre, post, hsplit, hpre, hpost, -⟩ := trimBoth_spec isAsciiBlank s
  have hnone {t : List Char} (ht : ∀ c ∈ t, isAsciiBlank c = true) : visible t = [] :=
    visible_eq_nil_iff.2 (List.all_eq_true.2 ht)
  conv_rhs => rw [hsplit, visible_append, visible_append, hnone hpre, hnone hpost, List.append_nil, List.nil_append]

/-- Text that holds tags, with lines around it where it has lines of its own. -/
def framed (block : Bool) (s : List Char) : List Char :=
  if block then '\n' :: s ++ ['\n'] else if s.contains '\n' then s ++ ['\n'] else s

theorem framed_spec (block : Bool) (s : List Char) : ∃ pre post, framed block s = pre ++ (s ++ post) ∧
    (∀ c ∈ pre, c = '\n') ∧ ∀ c ∈ post, c = '\n' := by
  unfold framed
  split
  · exact ⟨['\n'], ['\n'], rfl, by simp, by simp⟩
  · split
    · exact ⟨[], ['\n'], rfl, by simp, by simp⟩
    · exact ⟨[], [], by simp, by simp, by simp⟩

theorem trimBoth_framed {s : List Char} (hne : s ≠ []) (h : Trimmed isAsciiBlank s) (block : Bool) :
    trimBoth isAsciiBlank (framed block s) = s := by
  obtain ⟨pre, post, heq, hpre, hpost⟩ := framed_spec block s
  rw [heq]
  exact trimBoth_between (fun c hc => by rw [hpre c hc]; rfl) (fun c hc => by rw [hpost c hc]; rfl) hne h

theorem tagsIn_append {post : List Char} (hangle : '<' ∉ post) (hclose : '>' ∉ post) (s : List Char) :
    tagsIn (s ++ post) = tagsIn s := by
  induction s with
  | nil => simpa [tagsIn] using tagInFront?_seenInTag.sights_text hangle []
  | cons c s ih =>
    have hfront : tagInFront? (c :: (s ++ post)) = tagInFront? (c :: s) := by
      by_cases hc : c = '<'
      · subst hc
        by_cases hs : '>' ∈ s
        · exact tagInFront?_seenInTag.closed ('<' :: s) post (List.mem_cons_of_mem _ hs)
        · simp [tagInFront?, cut_char_eq_none, hs, hclose]
      · rw [tagInFront?_cons_of_ne hc, tagInFront?_cons_of_ne hc]
    rw [List.cons_append, tagsIn, sights, hfront]
    exact congrArg _ ih

theorem tagsIn_framed (block : Bool) (s : List Char) : tagsIn (framed block s) = tagsIn s := by
  obtain ⟨pre, post, heq, hpre, hpost⟩ := framed_spec block s
  have hnot {q : Char} {t : List Char} (hq : q ≠ '\n') (ht : ∀ c ∈ t, c = '\n') : q ∉ t := fun h => hq (ht q h)
  rw [heq, tagsIn, tagInFront?_seenInTag.sights_text (hnot (by decide) hpre), ← tagsIn,
    tagsIn_append (hnot (by decide) hpost) (hnot (by decide) hpost)]

theorem visible_framed (block : Bool) (s : List Char) : visible (framed block s) = visible s := by
  have hline : visible ['\n'] = [] := rfl
  unfold framed
  split
  · rw [← List.singleton_append, visible_append, visible_append, hline, List.nil_append, List.append_nil]
  · split
    · rw [visible_append, hline, List.append_nil]
    · rfl

theorem flowChars_of_markup {s : List Char} (h : '<' ∈ trimBoth isAsciiBlank s) : flowChars s =
    framed (hasBlock (trimBoth isAsciiBlank s)) (writeRuns false (runs (trimBoth isAsciiBlank s))) := by
  have hne : (trimBoth isAsciiBlank s).isEmpty = false := by
    rw [List.isEmpty_eq_false_iff]
    exact List.ne_nil_of_mem h
  simp [flowChars, framed, hne, h]

theorem trimBoth_eq_nil_iff {s : List Char} : trimBoth isAsciiBlank s = [] ↔ visible s = [] := by
  rw [← visible_trimBoth]
  constructor
  · intro h
    rw [h]
    rfl
  · intro h
    obtain ⟨-, -, -, -, -, htrimmed⟩ := trimBoth_spec isAsciiBlank s
    cases htrim : trimBoth isAsciiBlank s with
    | nil => rfl
    | cons c t =>
      rw [htrim] at h htrimmed
      have hc : c ∈ visible (c :: t) := (mem_visible (htrimmed.head c rfl)).2 List.mem_cons_self
      simp [h] at hc

theorem flowChars_of_plain {s : List Char} (h : '<' ∉ trimBoth isAsciiBlank s) :
    flowChars s = trimBoth isAsciiBlank (collapse s) := by
  rw [flowChars]
  by_cases hempty : trimBoth isAsciiBlank s = []
  · have hblank : trimBoth isAsciiBlank (collapse s) = [] := by
      rw [trimBoth_eq_nil_iff, visible_collapse, ← trimBoth_eq_nil_iff, hempty]
    simp [hempty, hblank]
  · simp [hempty, h]

theorem visible_flowChars (s : List Char) : visible (flowChars s) = visible s := by
  by_cases h : '<' ∈ trimBoth isAsciiBlank s
  · rw [flowChars_of_markup h, visible_framed, visible_writeRuns_runs, visible_trimBoth]
  · rw [flowChars_of_plain h, visible_trimBoth, visible_collapse]

theorem tagsIn_flowChars (s : List Char) : tagsIn (flowChars s) = tagsIn (trimBoth isAsciiBlank s) := by
  by_cases h : '<' ∈ trimBoth isAsciiBlank s
  · rw [flowChars_of_markup h, tagsIn_framed]
    exact tagInFront?_seenInTag.sights_writeRuns_runs false _
  · have hnone {t : List Char} (ht : '<' ∉ t) : tagsIn t = [] := by
      simpa [tagsIn, sights] using tagInFront?_seenInTag.sights_text ht []
    have hsame : visible (flowChars s) = visible (trimBoth isAsciiBlank s) := by rw [visible_flowChars, visible_trimBoth]
    rw [hnone h, hnone fun hmem => h ((mem_iff_of_visible_eq hsame (by decide)).1 hmem)]

theorem flowChars_flowChars (s : List Char) : flowChars (flowChars s) = flowChars s := by
  obtain ⟨-, -, -, -, -, htrimmed⟩ := trimBoth_spec isAsciiBlank s
  by_cases h : '<' ∈ trimBoth isAsciiBlank s
  · have hsame := visible_writeRuns_runs false (trimBoth isAsciiBlank s)
    have hmem := (mem_iff_of_visible_eq hsame (by decide)).2 h
    have htrim := trimBoth_framed (List.ne_nil_of_mem hmem) (trimmed_writeRuns_runs htrimmed false)
      (hasBlock (trimBoth isAsciiBlank s))
    -- The lines around it are trimmed off again, and its tags say the same about blocks as before.
    rw [flowChars_of_markup h, flowChars_of_markup (by rwa [htrim]), htrim, writeRuns_runs_runs, hasBlock_eq,
      blockInFront?_seenInTag.sights_writeRuns_runs, ← hasBlock_eq]
  · obtain ⟨pre, post, hsplit, -, -, hcollapsed⟩ := trimBoth_spec isAsciiBlank (collapse s)
    have hpart : trimBoth isAsciiBlank (collapse s) <:+: collapse s := ⟨pre, post, by rw [List.append_assoc, ← hsplit]⟩
    have hsame : visible (trimBoth isAsciiBlank (collapse s)) = visible (trimBoth isAsciiBlank s) := by
      rw [visible_trimBoth, visible_collapse, visible_trimBoth]
    have hplain : '<' ∉ trimBoth isAsciiBlank (collapse s) :=
      fun hmem => h ((mem_iff_of_visible_eq hsame (by decide)).1 hmem)
    rw [flowChars_of_plain h, flowChars_of_plain (by rwa [hcollapsed.trimBoth_eq]),
      ((collapsed_collapse s).part hpart).collapse_eq, hcollapsed.trimBoth_eq]

/-- Normalising a text keeps everything but blanks, keeps its tags, and changes nothing the second time. -/
theorem flow_keeps_content (s : String) :
    visible (flow s).toList = visible s.toList ∧
    tagsIn (flow s).toList = tagsIn (trimAscii s).toList ∧
    flow (flow s) = flow s := by
  simp only [flow, trimAscii, String.toList_ofList]
  exact ⟨visible_flowChars _, tagsIn_flowChars _, congrArg String.ofList (flowChars_flowChars _)⟩

end EmailMarkup.Render
