import EmailMarkup.Proofs.Template.Comment
/-!
# How deep elements lie

`LiesAt` counts the levels from the root down to an element, and `levelsAll` is the deepest level there is
(`levelsAll_le_iff`). The reader looks at the level of every start tag before it reads it, and nothing it closes later
lies deeper, so that a template that could be read keeps within the ceiling it was read with (`ofChars_levels`).
-/
namespace EmailMarkup.Template

open EmailMarkup.Text

/-! ## Levels -/

/-- An element named `tag` is one of the nodes (level 1), or lies that far down in one of them. -/
inductive LiesAt (tag : String) : Nat → List Node → Prop
  | here {a : Attributes} {children nodes : List Node} (h : .element tag a children ∈ nodes) : LiesAt tag 1 nodes
  | inside {outer : String} {a : Attributes} {children nodes : List Node} {level : Nat}
      (h : .element outer a children ∈ nodes) (lies : LiesAt tag level children) : LiesAt tag (level + 1) nodes

theorem levelsAll_le {nodes : List Node} {k : Nat} : levelsAll nodes ≤ k ↔ ∀ n ∈ nodes, levels n ≤ k := by
  induction nodes with
  | nil => simp [levelsAll]
  | cons n rest ih => simp [levelsAll, ih]

theorem levels_le_of_mem {n : Node} {nodes : List Node} (h : n ∈ nodes) : levels n ≤ levelsAll nodes :=
  levelsAll_le.1 (Nat.le_refl _) n h

@[simp] theorem levelsAll_append (nodes more : List Node) :
    levelsAll (nodes ++ more) = max (levelsAll nodes) (levelsAll more) := by
  induction nodes with
  | nil => simp [levelsAll]
  | cons n rest ih => simp [levelsAll, ih, Nat.max_assoc]

@[simp] theorem levelsAll_reverse (nodes : List Node) : levelsAll nodes.reverse = levelsAll nodes := by
  refine Nat.le_antisymm ?_ ?_
  · exact levelsAll_le.2 fun n hn => levels_le_of_mem (List.mem_reverse.1 hn)
  · exact levelsAll_le.2 fun n hn => levels_le_of_mem (List.mem_reverse.2 hn)

theorem levelsAll_children_le (n : Node) : levelsAll n.children ≤ levels n - 1 := by
  cases n <;> simp [Node.children, levels, levelsAll]

theorem LiesAt.le_levelsAll {tag : String} {level : Nat} {nodes : List Node} (h : LiesAt tag level nodes) :
    level ≤ levelsAll nodes := by
  induction h with
  | here h =>
    have hlevel := levels_le_of_mem h
    rw [levels] at hlevel
    omega
  | inside h _ ih =>
    have hlevel := levels_le_of_mem h
    rw [levels] at hlevel
    omega

theorem LiesAt.mono {tag : String} {level : Nat} {nodes more : List Node} (h : LiesAt tag level nodes)
    (hsub : nodes ⊆ more) : LiesAt tag level more := by
  cases h with
  | here h => exact .here (hsub h)
  | inside h lies => exact .inside (hsub h) lies

mutual

theorem exists_liesAt_levels : ∀ n : Node, levels n ≠ 0 → ∃ tag, LiesAt tag (levels n) [n]
  | .element tag a children, _ => by
    rw [levels]
    by_cases h : levelsAll children = 0
    · rw [h]
      exact ⟨tag, .here (List.mem_singleton.2 rfl)⟩
    · obtain ⟨inner, hinner⟩ := exists_liesAt_levelsAll children h
      exact ⟨inner, .inside (List.mem_singleton.2 rfl) hinner⟩
  | .text _, h | .cdata _, h | .comment _, h => absurd rfl h

/-- Some element lies as deep as there are levels. -/
theorem exists_liesAt_levelsAll : ∀ nodes : List Node, levelsAll nodes ≠ 0 → ∃ tag, LiesAt tag (levelsAll nodes) nodes
  | [], h => absurd rfl h
  | n :: rest, h => by
    rw [levelsAll] at h ⊢
    rcases Nat.le_total (levels n) (levelsAll rest) with hle | hle
    · rw [Nat.max_eq_right hle] at h ⊢
      obtain ⟨tag, htag⟩ := exists_liesAt_levelsAll rest h
      exact ⟨tag, htag.mono fun _ hm => List.mem_cons_of_mem _ hm⟩
    · rw [Nat.max_eq_left hle] at h ⊢
      obtain ⟨tag, htag⟩ := exists_liesAt_levels n h
      refine ⟨tag, htag.mono fun m hm => ?_⟩
      rw [List.mem_singleton.1 hm]
      exact List.mem_cons_self

end

/-- There are at most `k` levels if no element lies deeper. -/
theorem levelsAll_le_iff {nodes : List Node} {k : Nat} :
    levelsAll nodes ≤ k ↔ ∀ tag level, LiesAt tag level nodes → level ≤ k := by
  refine ⟨fun h tag level hlies => Nat.le_trans hlies.le_levelsAll h, fun h => ?_⟩
  by_cases hzero : levelsAll nodes = 0
  · omega
  · obtain ⟨tag, htag⟩ := exists_liesAt_levelsAll nodes hzero
    exact h tag _ htag

/-! ## The ceiling of the reader -/

variable {maxDepth fuel : Nat} {top top' : Open} {outer outer' : List Open} {s rest r : List Char}
  {token : Token} {n : Node}

theorem readToken_start {t : StartTag} (h : readToken s = .ok (.start t, rest)) : readStartTag s = .ok (t, rest) := by
  unfold readToken at h
  split at h
  · unfold readMarkup at h
    repeat' split at h
    case isFalse =>
      obtain ⟨⟨t', rest'⟩, hread, h⟩ := bind_eq_ok.1 h
      obtain ⟨htag, rfl⟩ := Prod.mk.inj (Except.ok.inj h)
      rw [hread, Token.start.inj htag]
    all_goals
      first
      | cases h
      | obtain ⟨_, _, h⟩ := bind_eq_ok.1 h
        cases h
  · unfold readText at h
    extract_lets raw at h
    split at h
    · cases h
    · split at h <;> cases h

/-- A start tag is read only where the level of its element is looked at. -/
theorem opensElement_of_start {t : StartTag} (h : readToken s = .ok (.start t, rest)) : opensElement s = true := by
  obtain ⟨c, piece, rfl, hstart, -⟩ := readStartTag_takes (readToken_start h)
  simp only [List.cons_append, opensElement, List.head?_cons, Bool.and_eq_true, bne_iff_ne, ne_eq, Option.some.injEq]
  refine ⟨⟨?_, ?_⟩, ?_⟩ <;> (rintro rfl; exact absurd hstart (by decide))

/-- What the open elements hold so far keeps within the ceiling. -/
def Fits (maxDepth : Nat) : List Open → Prop
  | [] => True
  | o :: outer => outer.length + levelsAll o.before ≤ maxDepth ∧ Fits maxDepth outer

theorem Fits.add (h : Fits maxDepth (top :: outer)) (hn : outer.length + levels n ≤ maxDepth) :
    Fits maxDepth (top.add n :: outer) := by
  refine ⟨?_, h.2⟩
  have hbefore := h.1
  simp only [Open.add, levelsAll]
  omega

/-- A token that goes on keeps within the ceiling. -/
theorem Fits.advance (h : Fits maxDepth (top :: outer)) (hdepth : opensElement s = true → outer.length + 1 ≤ maxDepth)
    (hread : readToken s = .ok (token, rest)) (hstep : Advances top outer token top' outer') :
    Fits maxDepth (top' :: outer') := by
  cases hstep with
  | empty => exact h.add (hdepth (opensElement_of_start hread))
  | start => exact ⟨hdepth (opensElement_of_start hread), h⟩
  | stop =>
    refine h.2.add ?_
    have hbefore := h.1
    rw [List.length_cons] at hbefore
    simp only [Open.node, levels, levelsAll_reverse]
    omega
  | @leaf _ _ n hleaf =>
    have hlevels : levels n = 0 := by
      unfold Token.leaf? at hleaf
      split at hleaf
      · cases hleaf
        rfl
      · cases hleaf
        rfl
      · split at hleaf <;> cases hleaf
        rfl
      · cases hleaf
    exact h.add (by rw [hlevels]; have := h.1; omega)
  | instruction | blank => exact h

/-- The content of an element keeps within the ceiling. The induction is on the tokens. -/
theorem readContent_levels (hfits : Fits maxDepth (top :: outer))
    (h : readContent maxDepth fuel top outer s = .ok (n, r)) : levelsAll n.children ≤ maxDepth := by
  induction fuel generalizing top outer s with
  | zero => cases h
  | succ fuel ih =>
    obtain ⟨-, hdepth, token, rest, hread, ⟨-, rfl, rfl, -⟩ | ⟨top', outer', hstep, h⟩⟩ := readContent_cases h
    · simpa [Open.node, Node.children] using hfits.1
    · exact ih (hfits.advance hdepth hread hstep) h

theorem readDocument_levels (h : readDocument maxDepth s = .ok n) : levelsAll n.children ≤ maxDepth := by
  obtain ⟨a, closed, text, w, -, hread, -⟩ := readDocument_eq_ok_iff.1 h
  cases closed with
  | true =>
    obtain ⟨rfl, -⟩ := Prod.mk.inj (Except.ok.inj hread)
    exact Nat.zero_le _
  | false =>
    have hfits : Fits maxDepth [⟨rootTag, a, []⟩] := ⟨Nat.zero_le _, trivial⟩
    exact readContent_levels hfits hread

/-- The elements of a template that could be read keep within the ceiling. -/
theorem ofChars_levels {t : Template} (h : ofChars maxDepth s = .ok t) : levelsAll t.children ≤ maxDepth := by
  rw [← String.toList_ofList (l := s)] at h
  exact readDocument_levels (parse_eq_ok_iff.1 h).2

end EmailMarkup.Template
