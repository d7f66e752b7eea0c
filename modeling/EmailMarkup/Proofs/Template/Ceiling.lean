import EmailMarkup.Error
import EmailMarkup.Proofs.Template.Levels
/-!
# One text under different ceilings

A template that can be read under some ceiling on nesting is the same template under every ceiling that its elements keep
within, and exceeds every other one (`parse_ceiling`). The open elements are all in the tree that is read, each at the
level where it was opened (`readContent_fits`). So a run under a lower ceiling goes the same way up to the first start tag
that lies too deep, and stops there: nothing else of the text is looked at.
-/
namespace EmailMarkup.Template

variable {maxDepth fuel k : Nat} {top top' : Open} {outer outer' : List Open} {s rest r : List Char}
  {token : Token} {n : Node}

/-! ## Steps -/

/-- Where the level is looked at, the token is a start tag. -/
theorem exists_start_of_opensElement (hopen : opensElement s = true) (h : readToken s = .ok (token, rest)) :
    ∃ t, token = .start t := by
  rw [readToken_of_opensElement hopen] at h
  obtain ⟨⟨t, _⟩, -, h⟩ := bind_eq_ok.1 h
  exact ⟨t, (Prod.mk.inj (Except.ok.inj h)).1.symm⟩

/-- What was open before a token is not deeper than what is open behind it. -/
theorem Fits.of_advance (hstep : Advances top outer token top' outer') (h : Fits k (top' :: outer')) :
    Fits k (top :: outer) := by
  have hadd {o : Open} {l : List Open} {m : Node} (h : Fits k (o.add m :: l)) :
      l.length + levels m ≤ k ∧ Fits k (o :: l) := by
    have hbefore := h.1
    simp only [Open.add, levelsAll] at hbefore
    exact ⟨by omega, by omega, h.2⟩
  cases hstep with
  | empty | leaf => exact (hadd h).2
  | start => exact h.2
  | stop =>
    obtain ⟨hnode, hrest⟩ := hadd h
    refine ⟨?_, hrest⟩
    simp only [Open.node, levels, levelsAll_reverse] at hnode
    rw [List.length_cons]
    omega
  | instruction | blank => exact h

/-- A start tag puts an element one level below the innermost open one. -/
theorem Fits.level_of_start {t : StartTag} (hstep : Advances top outer (.start t) top' outer') (h : Fits k (top' :: outer')) :
    outer.length + 1 ≤ k := by
  have hbefore := h.1
  cases hstep with
  | empty =>
    simp only [Open.add, levelsAll, levels] at hbefore
    omega
  | start => exact hbefore
  | leaf hleaf => cases hleaf

/-! ## Runs -/

/-- The open elements, and what they hold so far, are no deeper than the tree that is read. -/
theorem readContent_fits (h : readContent maxDepth fuel top outer s = .ok (n, r)) :
    Fits (levelsAll n.children) (top :: outer) := by
  induction fuel generalizing top outer s with
  | zero => cases h
  | succ fuel ih =>
    obtain ⟨-, -, token, rest, -, ⟨-, rfl, rfl, -⟩ | ⟨top', outer', hstep, h⟩⟩ := readContent_cases h
    · refine ⟨?_, trivial⟩
      simp [Open.node, Node.children]
    · exact (ih h).of_advance hstep

theorem readContent_tooDeep (hopen : opensElement s = true) (hlevel : maxDepth < outer.length + 1) :
    readContent maxDepth (fuel + 1) top outer s = .error .tooDeep := by
  have hne : s ≠ [] := by
    rintro rfl
    cases hopen
  rw [readContent, if_pos (by simpa [hopen] using hlevel)]
  exact hne

/-- Content that can be read under one ceiling is read the same under any other that its elements keep within, and exceeds
all others. The induction is on the tokens; what is open fits the other ceiling up to the token that exceeds it. -/
theorem readContent_ceiling {d : Nat} (h : readContent maxDepth fuel top outer s = .ok (n, r)) (hfits : Fits d (top :: outer)) :
    readContent d fuel top outer s = if levelsAll n.children ≤ d then .ok (n, r) else .error .tooDeep := by
  induction fuel generalizing top outer s with
  | zero => cases h
  | succ fuel ih =>
    obtain ⟨hne, -, token, rest, hread, ⟨rfl, rfl, rfl, rfl⟩ | ⟨top', outer', hstep, h⟩⟩ := readContent_cases h
    · have hclosed : opensElement s = true → 1 ≤ d := fun hopen => by
        obtain ⟨t, ht⟩ := exists_start_of_opensElement hopen hread
        cases ht
      have hlevels : levelsAll top.node.children ≤ d := by simpa [Open.node, Node.children] using hfits.1
      rw [readContent_of_end hne hclosed hread, if_pos hlevels]
    · by_cases hlevel : opensElement s = true ∧ d < outer.length + 1
      · obtain ⟨t, rfl⟩ := exists_start_of_opensElement hlevel.1 hread
        have hdeep : outer.length + 1 ≤ levelsAll n.children := (readContent_fits h).level_of_start hstep
        rw [readContent_tooDeep hlevel.1 hlevel.2, if_neg (by omega)]
      · have hdepth : opensElement s = true → outer.length + 1 ≤ d := fun hopen => by
          have := not_and.1 hlevel hopen
          omega
        rw [readContent_of_advances hne hdepth hread hstep]
        exact ih h (hfits.advance hdepth hread hstep)

/-! ## Templates -/

/-- A document that can be read under one ceiling is the same document under any other that its elements keep within, and
exceeds all others. -/
theorem readDocument_ceiling (h : readDocument maxDepth s = .ok n) (d : Nat) :
    readDocument d s = if levelsAll n.children ≤ d then .ok n else .error .tooDeep := by
  obtain ⟨a, closed, text, w, hopens, hread, hend⟩ := readDocument_eq_ok_iff.1 h
  cases closed with
  | true =>
    obtain ⟨rfl, rfl⟩ := Prod.mk.inj (Except.ok.inj hread)
    have hlevels : levelsAll (Open.node ⟨rootTag, a, []⟩).children ≤ d := Nat.zero_le d
    rw [if_pos hlevels]
    exact readDocument_eq_ok_iff.2 ⟨a, true, _, _, hopens, rfl, hend⟩
  | false =>
    have hfits : Fits d [⟨rootTag, a, []⟩] := ⟨Nat.zero_le _, trivial⟩
    have hceiling := readContent_ceiling hread hfits
    split at hceiling
    · rename_i hlevels
      rw [if_pos hlevels]
      exact readDocument_eq_ok_iff.2 ⟨a, false, text, w, hopens, hceiling, hend⟩
    · rename_i hlevels
      rw [if_neg hlevels, readDocument_of_content_error hopens hceiling]

/-- The ceiling is an exact threshold: a text that is a template under some ceiling is the same template under every ceiling
that is at least its greatest level, and under every other one it exceeds the limit, and nothing else is wrong with it. -/
theorem parse_ceiling {source : String} {t : Template} (h : parse maxDepth source = .ok t) (d : Nat) :
    (levelsAll t.children ≤ d → parse d source = .ok t) ∧
      (d < levelsAll t.children → parse d source = .error (.tooDeep d) ∧ (Error.template (.tooDeep d)).kind = .limit) := by
  obtain ⟨hblank, hread⟩ := parse_eq_ok_iff.1 h
  have hceiling := readDocument_ceiling hread d
  refine ⟨fun hlevels => ?_, fun hlevels => ⟨?_, rfl⟩⟩
  · have hchildren : levelsAll t.root.children ≤ d := hlevels
    rw [if_pos hchildren] at hceiling
    exact parse_eq_ok_iff.2 ⟨hblank, hceiling⟩
  · have hchildren : ¬levelsAll t.root.children ≤ d := Nat.not_le.2 hlevels
    rw [if_neg hchildren] at hceiling
    rw [parse, ofChars, hblank, if_neg Bool.false_ne_true, ofProtected, hceiling]
    rfl

/-- A template with three levels below the root: elements that end at once, verbatim text with tags in it, text and a
comment stand at different levels. -/
def threeLevels : Template :=
  ⟨.empty, [.element headTag .empty [], .element bodyTag .empty [.comment " a > b ", .element "mj-section" .empty
    [.element "mj-text" .empty [.cdata "<a><b><c></c></b></a>"], .text "t", .element "mj-spacer" .empty []]]]⟩

def threeLevelsSource : String :=
  "<mjml><mj-head /><mj-body><!-- a > b --><mj-section><mj-text><a><b><c></c></b></a></mj-text>t<mj-spacer /></mj-section>" ++
    "</mj-body></mjml>"

theorem parse_ceiling_three :
    parse defaultMaxDepth threeLevelsSource = .ok threeLevels ∧ levelsAll threeLevels.children = 3 ∧
      parse 3 threeLevelsSource = .ok threeLevels ∧ parse 2 threeLevelsSource = .error (.tooDeep 2) := by
  have hsource : threeLevelsSource = threeLevels.root.markup := by decide +kernel
  have hread : parse defaultMaxDepth threeLevelsSource = .ok threeLevels := by
    rw [hsource]
    exact ofChars_markup (by decide +kernel) (by decide +kernel)
  refine ⟨hread, by decide +kernel, ?_, ?_⟩
  · exact (parse_ceiling hread 3).1 (by decide +kernel)
  · exact ((parse_ceiling hread 2).2 (by decide +kernel)).1

end EmailMarkup.Template
