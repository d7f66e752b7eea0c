import EmailMarkup.Proofs.Layout.Columns
import EmailMarkup.Proofs.Number.Text
import EmailMarkup.Proofs.Selector.RoundTrip
import EmailMarkup.Render.Outlook
/-!
# Widths of columns on wide screens

A declared width is read three times: by the layout, which takes a number without a unit for pixels, for the width of
the column on wide screens, and for its class. The first two readings agree on the unit exactly if the text states it
(`columnWidth_sameUnit_iff`). The class of a decimal can stand in a selector, unless it is a number of pixels with a
point, and it tells the decimals of one unit apart (`columnClass_addressable`).
-/
namespace EmailMarkup.Render

open EmailMarkup.Layout
open EmailMarkup.Number
open EmailMarkup.Selector
open EmailMarkup.Text

/-! ## Specs -/

/-- The width of a column on wide screens, where one without a width of its own gets `share`. -/
def columnSpec (share : String) (width : Option String) : String :=
  match width.map trim with
  | none => share
  | some value =>
    if value.isEmpty then share
    else match dropEnd? "%" value with
      | some percent => trim percent
      | none => value

def equalShare (count : Nat) : String := widthText (100 / Float.ofNat (max count 1))

theorem getElem?_columnSpecs {widths : List (Option String)} {i : Nat} {w : Option String} (h : widths[i]? = some w) :
    (columnSpecs widths)[i]? = some (columnSpec (equalShare widths.length) w) := by
  have hspecs : columnSpecs widths = widths.map (columnSpec (equalShare widths.length)) := rfl
  rw [hspecs, List.getElem?_map, h, Option.map_some]

theorem columnSpec_of_blank (share : String) {s : String} (h : isBlankText s = true) :
    columnSpec share (some s) = share := by
  simp [columnSpec, isEmpty_trim, h]

theorem columnSpec_percent (share : String) {s percent : String} (h : isBlankText s = false)
    (hp : dropEnd? "%" (trim s) = some percent) : columnSpec share (some s) = trim percent := by
  simp [columnSpec, isEmpty_trim, h, hp]

theorem columnSpec_other (share : String) {s : String} (h : isBlankText s = false) (hp : dropEnd? "%" (trim s) = none) :
    columnSpec share (some s) = trim s := by
  simp [columnSpec, isEmpty_trim, h, hp]

/-! ## Units -/

/-- Whether a text ends in the unit of pixels. -/
def saysPixels (s : String) : Bool := (dropEnd? "px" s).isSome

theorem saysPixels_iff {s : String} : saysPixels s = true ↔ ['p', 'x'] <:+ s.toList := by
  rw [saysPixels, dropEnd?, Option.isSome_map]
  exact endsWith_eq_true_iff

/-- A number says nothing of its unit. -/
theorem saysPixels_equalShare (count : Nat) : saysPixels (equalShare count) = false := by
  rw [Bool.eq_false_iff]
  intro h
  have hmem : 'x' ∈ (equalShare count).toList := (saysPixels_iff.1 h).subset (by simp)
  exact absurd (mem_widthText hmem) (by decide)

/-- Layout and wide screens take a declared width in the same unit: both as a share of the row, or both in pixels. -/
structure SameUnit {α : Type} (layout : ColumnWidth α) (screen : String × String) : Prop where
  share : screen.2 = "%" ↔ layout = .auto ∨ ∃ percent, layout = .percent percent
  pixels : screen.2 = "" ∧ saysPixels screen.1 = true ↔ ∃ length, layout = .pixels length

theorem sameUnit_iff {α : Type} (layout : ColumnWidth α) (spec : String) :
    SameUnit layout (columnWidth (some spec)) ↔ (saysPixels spec = true ↔ ∃ length, layout = .pixels length) := by
  have hwidth : columnWidth (some spec) = (spec, if saysPixels spec then "" else "%") := by
    rw [columnWidth, saysPixels]
    split <;> rfl
  rw [hwidth]
  constructor
  · intro h
    rw [← h.pixels]
    cases saysPixels spec <;> simp
  · intro h
    constructor
    · cases layout <;> simp_all
    · rw [← h]
      cases saysPixels spec <;> simp

/-- Whether a declared width states its unit: it is missing or blank, a percentage of what has no unit itself, or it
ends in the unit of pixels. -/
def statesUnit : Option String → Bool
  | none => true
  | some s =>
    isBlankText s || match dropEnd? "%" (trim s) with
      | some percent => !saysPixels (trim percent)
      | none => saysPixels (trim s)

/-- The width of a column on wide screens is in the unit that its layout is in exactly if the declared width states its
unit. -/
theorem columnWidth_sameUnit_iff {α : Type} [Measure α] {widths : List (Option String)} {i : Nat} {w : Option String}
    (h : widths[i]? = some w) : ∃ spec, (columnSpecs widths)[i]? = some spec ∧
      (SameUnit (ColumnWidth.parse w : ColumnWidth α) (columnWidth (some spec)) ↔ statesUnit w = true) := by
  refine ⟨_, getElem?_columnSpecs h, ?_⟩
  rw [sameUnit_iff]
  cases w with
  | none => simp [columnSpec, ColumnWidth.parse, statesUnit, saysPixels_equalShare]
  | some s =>
    cases hblank : isBlankText s with
    | true => simp [columnSpec_of_blank, ColumnWidth.parse, statesUnit, saysPixels_equalShare, isEmpty_trim, hblank]
    | false =>
      cases hp : dropEnd? "%" (trim s) with
      | some percent => simp [columnSpec_percent _ hblank hp, ColumnWidth.parse, statesUnit, isEmpty_trim, hblank, hp]
      | none => simp [columnSpec_other _ hblank hp, ColumnWidth.parse, statesUnit, isEmpty_trim, hblank, hp]

/-- A percentage with a blank before its sign, and a number of pixels. -/
theorem columnWidth_sameUnit_iff_row :
    SameUnit (ColumnWidth.parse (some "25 %") : ColumnWidth Float) (columnWidth (some "25")) ∧
      SameUnit (ColumnWidth.parse (some "150px") : ColumnWidth Float) (columnWidth (some "150px")) := by
  have hpercent : [some "25 %", none, some "150px"][0]? = some (some "25 %") := rfl
  have hpixels : [some "25 %", none, some "150px"][2]? = some (some "150px") := rfl
  constructor
  · obtain ⟨spec, hspec, hunit⟩ := columnWidth_sameUnit_iff (α := Float) hpercent
    obtain rfl : spec = "25" := Option.some.inj (hspec.symm.trans (by decide +kernel))
    exact hunit.2 (by decide +kernel)
  · obtain ⟨spec, hspec, hunit⟩ := columnWidth_sameUnit_iff (α := Float) hpixels
    obtain rfl : spec = "150px" := Option.some.inj (hspec.symm.trans (by decide +kernel))
    exact hunit.2 (by decide +kernel)

/-- A number without a unit is laid out in pixels, and is a percentage on wide screens. -/
theorem columnWidth_of_number : columnSpecs [some "150"] = ["150"] ∧ columnWidth (some "150") = ("150", "%") ∧
    (∃ length, (ColumnWidth.parse (some "150") : ColumnWidth Float) = .pixels length) ∧
    ¬SameUnit (ColumnWidth.parse (some "150") : ColumnWidth Float) (columnWidth (some "150")) := by
  have hpixels : ∃ length, (ColumnWidth.parse (some "150") : ColumnWidth Float) = .pixels length := ⟨_, rfl⟩
  refine ⟨by decide +kernel, by decide +kernel, hpixels, fun h => ?_⟩
  exact absurd (h.pixels.2 hpixels) (by decide +kernel)

/-! ## Decimals -/

/-- A number written with digits, and with digits behind a point if it has a fraction. -/
@[ext]
structure Decimal where
  whole : List Char
  fraction : Option (List Char)
  whole_digits : isDigits whole = true
  fraction_digits : ∀ ds ∈ fraction, isDigits ds = true

namespace Decimal

/-- What stands behind the digits of the whole. -/
def rest (n : Decimal) : List Char := n.fraction.elim [] ('.' :: ·)

def chars (n : Decimal) : List Char := n.whole ++ n.rest

def text (n : Decimal) : String := String.ofList n.chars

theorem isDigit_of_mem {ds : List Char} (h : isDigits ds = true) {c : Char} (hc : c ∈ ds) : c.isDigit = true := by
  rw [isDigits, Bool.and_eq_true, List.all_eq_true] at h
  exact h.2 c hc

theorem ne_nil {ds : List Char} (h : isDigits ds = true) : ds ≠ [] := by
  rintro rfl
  cases h

theorem mem_chars {n : Decimal} {c : Char} (hc : c ∈ n.chars) : c.isDigit = true ∨ c = '.' := by
  rw [chars, rest, List.mem_append] at hc
  rcases hc with hc | hc
  · exact .inl (isDigit_of_mem n.whole_digits hc)
  · cases hf : n.fraction with
    | none => simp [hf] at hc
    | some ds =>
      rw [hf, Option.elim_some, List.mem_cons] at hc
      exact hc.symm.imp_left (isDigit_of_mem (n.fraction_digits ds hf))

theorem chars_ne_nil (n : Decimal) : n.chars ≠ [] := by
  simp [chars, ne_nil n.whole_digits]

theorem chars_injective {n m : Decimal} (h : n.chars = m.chars) : n = m := by
  have hspan (k : Decimal) : k.chars.takeWhile Char.isDigit = k.whole ∧ k.chars.dropWhile Char.isDigit = k.rest := by
    refine span_append (fun c hc => isDigit_of_mem k.whole_digits hc) fun c hc => ?_
    cases hf : k.fraction with
    | none => simp [rest, hf] at hc
    | some ds =>
      obtain rfl : '.' = c := by simpa [rest, hf] using hc
      rfl
  have hwhole : n.whole = m.whole := by rw [← (hspan n).1, h, (hspan m).1]
  have hrest : n.rest = m.rest := by rw [← (hspan n).2, h, (hspan m).2]
  have hfraction : n.fraction = m.fraction := by
    unfold rest at hrest
    cases hn : n.fraction <;> cases hm : m.fraction <;> simp_all
  exact Decimal.ext hwhole hfraction

theorem isIdentChar_of_isDigit {c : Char} (h : c.isDigit = true) : isIdentChar c = true := by
  simp [isIdentChar, Char.isAlphanum, h]

theorem isBlank_of_mem {n : Decimal} {c : Char} (hc : c ∈ n.chars) : isBlank c = false := by
  rcases mem_chars hc with hdigit | rfl
  · exact isBlank_of_isIdentChar (isIdentChar_of_isDigit hdigit)
  · rfl

theorem not_mem_chars (n : Decimal) {c : Char} (hdigit : c.isDigit = false) (hpoint : c ≠ '.') : c ∉ n.chars := by
  intro hc
  rcases mem_chars hc with h | h
  · simp [h] at hdigit
  · exact hpoint h

end Decimal

/-! ## Classes -/

/-- The units in which widths are declared. -/
inductive WidthUnit where
  | percent
  | pixels
  deriving DecidableEq, Repr

namespace WidthUnit

def sign : WidthUnit → String
  | percent => "%"
  | pixels => "px"

/-- The width on wide screens of a column that declares a decimal. -/
def spec (u : WidthUnit) (n : Decimal) : String :=
  match u with
  | percent => n.text
  | pixels => n.text ++ "px"

def hyphen (c : Char) : Char := if c = '.' then '-' else c

def className (u : WidthUnit) (n : Decimal) : String :=
  match u with
  | percent => "mj-column-per-" ++ String.ofList (n.chars.map hyphen)
  | pixels => "mj-column-px-" ++ n.text

theorem className_percent (n : Decimal) :
    percent.className n = "mj-column-per-" ++ String.ofList (n.chars.map hyphen) := rfl

theorem className_pixels (n : Decimal) : pixels.className n = "mj-column-px-" ++ n.text := rfl

end WidthUnit

theorem trim_eq_self {s : String} (h : ∀ c ∈ s.toList, isBlank c = false) : trim s = s := by
  have htrimmed : Trimmed isBlank s.toList :=
    ⟨fun c hc => h c (List.mem_of_mem_head? hc), fun c hc => h c (List.mem_of_mem_getLast? hc)⟩
  rw [trim, htrimmed.trimBoth_eq, String.ofList_toList]

theorem dropEnd?_append (s pat : String) : dropEnd? pat (s ++ pat) = some s := by
  simp [dropEnd?, stripEnd?, strip?_append]

theorem dropEnd?_of_not_mem {pat s : String} {c : Char} (hpat : c ∈ pat.toList) (hs : c ∉ s.toList) :
    dropEnd? pat s = none := by
  rw [dropEnd?, Option.map_eq_none_iff, ← Option.isNone_iff_eq_none, ← Option.not_isSome, Bool.not_eq_true', ← endsWith,
    Bool.eq_false_iff]
  intro h
  exact hs ((endsWith_eq_true_iff.1 h).subset hpat)

open WidthUnit

/-- A decimal with its unit keeps its characters. -/
theorem columnSpec_decimal (share : String) (u : WidthUnit) (n : Decimal) :
    columnSpec share (some (n.text ++ u.sign)) = u.spec n := by
  have hchars : ∀ c ∈ (n.text ++ u.sign).toList, isBlank c = false := by
    intro c hc
    rw [Decimal.text, String.toList_append, String.toList_ofList, List.mem_append] at hc
    rcases hc with hc | hc
    · exact Decimal.isBlank_of_mem hc
    · cases u with
      | percent =>
        obtain rfl : c = '%' := by simpa [sign] using hc
        rfl
      | pixels =>
        have hc : c = 'p' ∨ c = 'x' := by simpa [sign] using hc
        rcases hc with rfl | rfl <;> rfl
  have htrim : trim (n.text ++ u.sign) = n.text ++ u.sign := trim_eq_self hchars
  have hblank : isBlankText (n.text ++ u.sign) = false := by
    rw [← isEmpty_trim, htrim]
    cases u <;> simp [sign]
  cases u with
  | percent =>
    have hpercent : dropEnd? "%" (trim (n.text ++ "%")) = some n.text := by
      rw [show trim (n.text ++ "%") = n.text ++ "%" from htrim, dropEnd?_append]
    have htext : trim n.text = n.text := trim_eq_self fun c hc => hchars c (by simp [hc])
    exact (columnSpec_percent share hblank hpercent).trans htext
  | pixels =>
    have hsign : '%' ∉ (n.text ++ "px").toList := by
      simp [Decimal.text, n.not_mem_chars]
    have hnone : dropEnd? "%" (trim (n.text ++ "px")) = none := by
      rw [show trim (n.text ++ "px") = n.text ++ "px" from htrim]
      exact dropEnd?_of_not_mem (c := '%') (by decide) hsign
    exact (columnSpec_other share hblank hnone).trans htrim

theorem columnClass_decimal (u : WidthUnit) (n : Decimal) : columnClass (some (u.spec n)) = u.className n := by
  cases u with
  | percent =>
    have hpixels : dropEnd? "px" n.text = none :=
      dropEnd?_of_not_mem (c := 'p') (by decide) (by simp [Decimal.text, n.not_mem_chars])
    have hpoints : n.chars.flatMap (fun c => if c = '.' then ['-'] else [c]) = n.chars.map hyphen := by
      have hone (c : Char) : (if c = '.' then ['-'] else [c]) = [hyphen c] := by
        unfold hyphen
        split <;> rfl
      simp only [hone]
      exact List.map_eq_flatMap.symm
    simp only [columnClass, spec, className_percent, Option.getD_some, hpixels, replace]
    simp [Decimal.text, replaceAll_char, hpoints]
  | pixels => simp [columnClass, spec, className_pixels, dropEnd?_append]

/-- Classes one after the other are read as conditions on one element. -/
theorem ofChars?_classes {names : List String} (hne : names ≠ []) (h : ∀ name ∈ names, IsIdent name.toList) :
    ofChars? (names.flatMap fun name => '.' :: name.toList) = some ⟨names.map .className, []⟩ := by
  have hwell : (⟨names.map .className, []⟩ : Selector).WellFormed := by
    intro c hc
    obtain rfl : c = names.map .className := by simpa [compounds] using hc
    refine ⟨by simpa using hne, ?_, ?_⟩
    · simpa [Simple.WellFormed] using h
    · intro s hs
      obtain ⟨name, -, rfl⟩ := List.mem_map.1 (List.mem_of_mem_tail hs)
      rfl
  have htext : Selector.text ⟨names.map .className, []⟩ = names.flatMap fun name => '.' :: name.toList := by
    simp [Selector.text, chainText, Compound.text, Simple.text, List.flatMap_map]
  have hread : ofChars? ([] ++ Selector.text ⟨names.map .className, []⟩) = some ⟨names.map .className, []⟩ :=
    ofChars?_text hwell (by simp)
  rwa [List.nil_append, htext] at hread

/-- A class that is a name is read as one class. -/
theorem parse?_class {name : String} (h : IsIdent name.toList) :
    Selector.parse? ("." ++ name) = some ⟨[.className name], []⟩ := by
  have hread : ofChars? ([name].flatMap fun name => '.' :: name.toList) = some ⟨[name].map .className, []⟩ :=
    ofChars?_classes (by simp) (by simpa using h)
  simpa [Selector.parse?] using hread

theorem isIdent_append {front : String} (hfront : IsIdent front.toList) {back : List Char}
    (hback : ∀ c ∈ back, isIdentChar c = true) : IsIdent (front ++ String.ofList back).toList := by
  rw [String.toList_append, String.toList_ofList]
  exact ⟨by simp [hfront.1], List.forall_mem_append.2 ⟨hfront.2, hback⟩⟩

theorem isIdentChar_of_mem_digits {ds : List Char} (h : isDigits ds = true) : ∀ c ∈ ds, isIdentChar c = true :=
  fun _ hc => Decimal.isIdentChar_of_isDigit (Decimal.isDigit_of_mem h hc)

/-- The class of a percentage is a name, and so is that of a whole number of pixels. -/
theorem isIdent_className {u : WidthUnit} {n : Decimal} (h : u = .percent ∨ n.fraction = none) :
    IsIdent (u.className n).toList := by
  cases u with
  | percent =>
    refine isIdent_append (by decide) ?_
    intro c hc
    obtain ⟨d, hd, rfl⟩ := List.mem_map.1 hc
    unfold hyphen
    split
    · rfl
    · rename_i hpoint
      exact Decimal.isIdentChar_of_isDigit ((Decimal.mem_chars hd).resolve_right hpoint)
  | pixels =>
    have hwhole : n.chars = n.whole := by simp [Decimal.chars, Decimal.rest, h.resolve_left (by decide)]
    rw [className_pixels, Decimal.text, hwhole]
    exact isIdent_append (by decide) (isIdentChar_of_mem_digits n.whole_digits)

/-- The point of a number of pixels begins another class. -/
theorem parse?_fraction {n : Decimal} {ds : List Char} (h : n.fraction = some ds) :
    Selector.parse? ("." ++ WidthUnit.pixels.className n) =
      some ⟨[.className ("mj-column-px-" ++ String.ofList n.whole), .className (String.ofList ds)], []⟩ := by
  have hwhole : IsIdent ("mj-column-px-" ++ String.ofList n.whole).toList :=
    isIdent_append (by decide) (isIdentChar_of_mem_digits n.whole_digits)
  have hfraction : IsIdent (String.ofList ds).toList := by
    have hdigits := n.fraction_digits ds h
    rw [String.toList_ofList]
    exact ⟨Decimal.ne_nil hdigits, isIdentChar_of_mem_digits hdigits⟩
  have hread : ofChars? (["mj-column-px-" ++ String.ofList n.whole, String.ofList ds].flatMap
        fun name => '.' :: name.toList) =
      some ⟨["mj-column-px-" ++ String.ofList n.whole, String.ofList ds].map .className, []⟩ :=
    ofChars?_classes (by simp) (List.forall_mem_cons.2 ⟨hwhole, List.forall_mem_singleton.2 hfraction⟩)
  simpa [Selector.parse?, className_pixels, Decimal.text, Decimal.chars, Decimal.rest, h] using hread

theorem parse?_className_iff (u : WidthUnit) (n : Decimal) :
    Selector.parse? ("." ++ u.className n) = some ⟨[.className (u.className n)], []⟩ ↔
      u = .percent ∨ n.fraction = none := by
  constructor
  · intro h
    cases u with
    | percent => exact .inl rfl
    | pixels =>
      refine .inr ?_
      cases hf : n.fraction with
      | none => rfl
      | some ds =>
        rw [parse?_fraction hf] at h
        simp at h
  · intro h
    exact parse?_class (isIdent_className h)

/-- The decimal can be read off its class. -/
theorem className_injective (u : WidthUnit) {n m : Decimal} (h : u.className n = u.className m) : n = m := by
  refine Decimal.chars_injective ?_
  have hlist := congrArg String.toList h
  cases u with
  | percent =>
    have hback (k : Decimal) : (k.chars.map hyphen).map (fun c => if c = '-' then '.' else c) = k.chars := by
      rw [List.map_map]
      refine (List.map_congr_left fun c hc => ?_).trans (List.map_id _)
      have hne : c ≠ '-' := fun he => k.not_mem_chars (by decide) (by decide) (he ▸ hc)
      unfold hyphen
      by_cases hpoint : c = '.' <;> simp [hpoint, hne]
    have hmap : n.chars.map hyphen = m.chars.map hyphen := by simpa [className_percent] using hlist
    rw [← hback n, hmap, hback m]
  | pixels => simpa [className_pixels, Decimal.text] using hlist

/-- The class of a column that declares a decimal is one class to a selector, unless it is a number of pixels with a
point; and columns that declare other decimals of the same unit have other classes. -/
theorem columnClass_addressable (u : WidthUnit) (n : Decimal) {widths : List (Option String)} {i : Nat}
    (h : widths[i]? = some (some (n.text ++ u.sign))) : ∃ spec, (columnSpecs widths)[i]? = some spec ∧
      (Selector.parse? ("." ++ columnClass (some spec)) = some ⟨[.className (columnClass (some spec))], []⟩ ↔
        u = .percent ∨ n.fraction = none) ∧
      ∀ (m : Decimal) (widths' : List (Option String)) (j : Nat) (spec' : String),
        widths'[j]? = some (some (m.text ++ u.sign)) → (columnSpecs widths')[j]? = some spec' →
        columnClass (some spec') = columnClass (some spec) → m = n := by
  have hspec (m : Decimal) {widths : List (Option String)} {i : Nat} (h : widths[i]? = some (some (m.text ++ u.sign))) :
      (columnSpecs widths)[i]? = some (u.spec m) := by
    rw [getElem?_columnSpecs h, columnSpec_decimal]
  refine ⟨u.spec n, hspec n h, ?_, ?_⟩
  · rw [columnClass_decimal]
    exact parse?_className_iff u n
  · intro m widths' j spec' hm hspec' hclass
    obtain rfl : spec' = u.spec m := Option.some.inj (hspec'.symm.trans (hspec m hm))
    rw [columnClass_decimal, columnClass_decimal] at hclass
    exact className_injective u hclass

def halfAbove33 : Decimal where
  whole := ['3', '3']
  fraction := some ['5']
  whole_digits := by decide
  fraction_digits := by
    intro ds hds
    cases hds
    decide

/-- As a percentage it has one class. -/
theorem columnClass_addressable_half :
    [some "50%", some "33.5%"][1]? = some (some (halfAbove33.text ++ WidthUnit.percent.sign)) ∧
      Selector.parse? ("." ++ columnClass (some "33.5")) = some ⟨[.className (columnClass (some "33.5"))], []⟩ := by
  have hwidth : [some "50%", some "33.5%"][1]? = some (some (halfAbove33.text ++ WidthUnit.percent.sign)) := by
    decide +kernel
  obtain ⟨spec, hspec, hclass, -⟩ := columnClass_addressable .percent halfAbove33 hwidth
  obtain rfl : spec = "33.5" := Option.some.inj (hspec.symm.trans (by decide +kernel))
  exact ⟨hwidth, hclass.2 (.inl rfl)⟩

/-- As a number of pixels it has a class that selectors take for two. -/
theorem columnClass_of_fraction : columnSpecs [some "33.5px"] = ["33.5px"] ∧
    columnClass (some "33.5px") = "mj-column-px-33.5" ∧
    Selector.parse? ".mj-column-px-33.5" = some ⟨[.className "mj-column-px-33", .className "5"], []⟩ := by
  decide +kernel

end EmailMarkup.Render
