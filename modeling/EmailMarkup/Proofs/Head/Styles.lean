import EmailMarkup.Head.Fonts
import EmailMarkup.Head.Reader
import Mathlib.Data.List.Induction
/-!
# What a head adds to the styles

Fonts and media queries are kept without repetition: adding some of them in turn gives the list without its repetitions
(`foldl_addNew`). A child of a head changes the fonts and styles in one of three ways, or not at all
(`readChild_reads`). What holds of an empty book, and of a book after each of these changes, holds of the book of every
head (`read_induction`). So reading a head adds no media query, and neither does linking its fonts: they all come from
rendering the body.
-/
namespace EmailMarkup.Head

/-! ## Lists without repetition -/

theorem foldl_addNew {α : Type} [DecidableEq α] (l : List α) : l.foldl addNew [] = l.eraseDups := by
  induction l using List.reverseRecOn with
  | nil => rfl
  | append_singleton l a ih =>
    rw [List.foldl_append, ih, List.eraseDups_append, List.foldl_cons, List.foldl_nil, addNew]
    by_cases h : a ∈ l <;> simp [List.removeAll, List.eraseDups_cons, h]

theorem nodup_addNew {α : Type} [DecidableEq α] {l : List α} (h : l.Nodup) (a : α) : (addNew l a).Nodup := by
  unfold addNew
  split
  · exact h
  · rename_i ha
    refine List.nodup_append.2 ⟨h, by simp, ?_⟩
    intro b hb c hc hbc
    rw [hbc, List.mem_singleton.1 hc] at hb
    exact ha hb

theorem nodup_foldl_addNew {α : Type} [DecidableEq α] (l : List α) {start : List α} (h : start.Nodup) :
    (l.foldl addNew start).Nodup := by
  induction l generalizing start with
  | nil => exact h
  | cons a l ih => exact ih (nodup_addNew h a)

theorem eraseDups_of_nodup {α : Type} [DecidableEq α] {l : List α} (h : l.Nodup) : l.eraseDups = l := by
  induction l with
  | nil => rfl
  | cons a l ih =>
    obtain ⟨ha, hl⟩ := List.nodup_cons.1 h
    have hrest : (l.filter fun b => !b == a) = l := by
      refine List.filter_eq_self.2 fun b hb => ?_
      have hne : b ≠ a := fun hba => ha (hba ▸ hb)
      simpa using hne
    rw [List.eraseDups_cons, hrest, ih hl]

theorem eraseDups_foldl_addNew {α : Type} [DecidableEq α] (l : List α) :
    (l.foldl addNew []).eraseDups = l.eraseDups := by
  rw [eraseDups_of_nodup (nodup_foldl_addNew l List.nodup_nil), foldl_addNew]

/-- What no step of a fold changes. -/
theorem foldl_keeps {σ α β : Type} {f : σ → α → σ} {v : σ → β} (h : ∀ s a, v (f s a) = v s) (l : List α)
    (s : σ) : v (l.foldl f s) = v s := by
  induction l generalizing s with
  | nil => rfl
  | cons a l ih => exact (ih (f s a)).trans (h s a)

/-! ## One child -/

/-- The second book is the first after one child of a head. -/
inductive StyleBook.Reads (b : StyleBook) : StyleBook → Prop
  | nothing : Reads b b
  | font {name address : String} (web : isWebAddress address = true) : Reads b (b.setAddress name address)
  | style {css : String} : Reads b (b.addStyle css)
  | inlineStyle {css : String} : Reads b (b.addInlineStyle css)

theorem readRule_styles (n : Node) (r : Reading) : (readRule n r).1.styles = r.1.styles := by
  unfold readRule
  split
  · rfl
  · split
    · split <;> rfl
    · rfl

theorem readHtmlRule_styles (n : Node) (r : Reading) : (readHtmlRule n r).1.styles = r.1.styles := by
  unfold readHtmlRule
  split
  · rfl
  · extract_lets found
    split <;> rfl

theorem readStyle_reads (n : Node) (r : Reading) : r.1.styles.Reads (readStyle n r).1.styles := by
  unfold readStyle
  extract_lets css
  split
  · exact .inlineStyle
  · exact .style

theorem readFont_reads (n : Node) (r : Reading) : r.1.styles.Reads (readFont n r).1.styles := by
  unfold readFont
  split
  · split
    · rename_i hweb
      exact .font hweb
    · exact .nothing
  · exact .nothing

theorem readComponent_reads (b : Builtin) (n : Node) (r : Reading) :
    r.1.styles.Reads (readComponent b n r).1.styles := by
  have hsame {r' : Reading} (h : r'.1.styles = r.1.styles) : r.1.styles.Reads r'.1.styles := h ▸ .nothing
  unfold readComponent
  split
  · unfold readTitle
    split <;> exact hsame rfl
  · unfold readPreview
    split <;> exact hsame rfl
  · unfold readBreakpoint
    split <;> exact hsame rfl
  · exact readFont_reads n r
  · exact readStyle_reads n r
  · exact hsame (foldl_keeps (v := fun r : Reading => r.1.styles) (fun r n => readRule_styles n r) _ r)
  · exact hsame (foldl_keeps (v := fun r : Reading => r.1.styles) (fun r n => readHtmlRule_styles n r) _ r)
  · unfold readRaw
    split <;> exact hsame rfl
  · exact hsame rfl
  · exact .nothing

theorem readChild_reads (registry : Registry) (r : Reading) (n : Node) :
    r.1.styles.Reads (readChild registry r n).1.styles := by
  unfold readChild
  split
  · split <;> exact .nothing
  · split
    · split
      · exact readComponent_reads _ _ r
      · exact .nothing
    · exact .nothing
    · exact .nothing
  · exact .nothing

/-! ## The whole head -/

/-- What the children of a head keep holds of the whole head. -/
theorem read_induction {P : StyleBook → Prop} (empty : P {}) (child : ∀ {b b'}, b.Reads b' → P b → P b')
    (registry : Registry) (head : Node) (ds : Diagnostics) : P (read registry head ds).1.styles := by
  have hrun (children : List Node) (r : Reading) (hr : P r.1.styles) :
      P (children.foldl (readChild registry) r).1.styles := by
    induction children generalizing r with
    | nil => exact hr
    | cons n children ih => exact ih _ (child (readChild_reads registry r n) hr)
  exact hrun head.children ({}, ds) empty

/-! ## Media queries -/

theorem read_mediaQueries (registry : Registry) (head : Node) (ds : Diagnostics) :
    (read registry head ds).1.styles.mediaQueries = [] :=
  read_induction (P := fun b => b.mediaQueries = []) rfl (fun h hb => by cases h <;> exact hb) registry head ds

theorem linkFamily_mediaQueries (b : StyleBook) (family : String) :
    (b.linkFamily family).mediaQueries = b.mediaQueries := by
  refine foldl_keeps (fun b f => ?_) b.availableFonts b
  unfold StyleBook.linkFont
  split <;> rfl

theorem linkFonts_mediaQueries (h : Head) (body : Node) :
    (linkFonts h body).styles.mediaQueries = h.styles.mediaQueries :=
  foldl_keeps linkFamily_mediaQueries (families h.rules body) h.styles

end EmailMarkup.Head
