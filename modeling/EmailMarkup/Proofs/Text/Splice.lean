import Mathlib.Data.List.Forall2
/-!
# Splices

Parts of a text, given by offsets into it, are replaced by others. If the parts do not overlap, they are replaced from the
last to the first, so that the offsets stay good, and the result is taken back by as many splices (`Spliced`).
-/
namespace EmailMarkup.Text

variable {α : Type}

/-- The part of a text from `start` up to `stop` is replaced. -/
structure Splice (α : Type) where
  start : Nat
  stop : Nat
  text : List α

def Splice.apply (e : Splice α) (s : List α) : List α := s.take e.start ++ e.text ++ s.drop e.stop

def spliceAll (es : List (Splice α)) (s : List α) : List α := es.foldr Splice.apply s

/-- A splice of the result puts back what another has replaced. -/
structure Splice.Restores (u e : Splice α) (s out : List α) : Prop where
  text : u.text = s.extract e.start e.stop
  place : out.extract u.start u.stop = e.text

/-- Parts of a text that do not touch one another are replaced, and can be put back. -/
structure Spliced (es : List (Splice α)) (s out : List α) : Prop where
  eq : out = spliceAll es s
  inside : ∀ e ∈ es, e.start ≤ e.stop ∧ e.stop ≤ s.length
  apart : es.Pairwise fun a b => a.stop < b.start
  restored : ∃ us, List.Forall₂ (fun e u => Splice.Restores u e s out) es us ∧ us.Pairwise (fun a b => a.stop < b.start) ∧
    spliceAll us out = s

/-- Two texts that are read side by side from an offset: they agree but for the splices. A character is kept behind each. -/
inductive Patched : Nat → List (Splice α) → List α → List α → Prop
  | done (n : Nat) (s : List α) : Patched n [] s s
  | keep {n : Nat} {es : List (Splice α)} {s out : List α} (front : List α) (h : Patched (n + front.length) es s out) :
    Patched n es (front ++ s) (front ++ out)
  | splice {n : Nat} {es : List (Splice α)} {s out : List α} (old new : List α) (c : α)
    (h : Patched (n + old.length + 1) es s out) :
    Patched n (⟨n, n + old.length, new⟩ :: es) (old ++ c :: s) (new ++ c :: out)

theorem extract_middle {s pre part post : List α} (h : s = pre ++ (part ++ post)) :
    s.extract pre.length (pre.length + part.length) = part := by
  rw [h, List.extract_eq_take_drop, List.drop_left, Nat.add_sub_cancel_left, List.take_left]

namespace Patched

variable {n : Nat} {es : List (Splice α)} {s out : List α}

theorem spliceAll_eq (h : Patched n es s out) (pre : List α) (hpre : pre.length = n) :
    spliceAll es (pre ++ s) = pre ++ out := by
  induction h generalizing pre with
  | done n s => rfl
  | keep front _ ih =>
    have hfront := ih (pre ++ front) (by rw [List.length_append, hpre])
    rwa [List.append_assoc, List.append_assoc] at hfront
  | @splice n es s out old new c _ ih =>
    subst hpre
    -- The later splices come first and leave the old part where it is.
    have hrest : spliceAll es (pre ++ (old ++ c :: s)) = pre ++ (old ++ c :: out) := by
      simpa using ih (pre ++ (old ++ [c])) (by simp [Nat.add_assoc])
    have hdrop : (pre ++ (old ++ c :: out)).drop (pre.length + old.length) = c :: out := by
      rw [List.drop_length_add_append, List.drop_left]
    calc spliceAll (⟨pre.length, pre.length + old.length, new⟩ :: es) (pre ++ (old ++ c :: s))
      _ = Splice.apply ⟨pre.length, pre.length + old.length, new⟩ (pre ++ (old ++ c :: out)) := congrArg _ hrest
      _ = pre ++ (new ++ c :: out) := by rw [Splice.apply, List.take_left, hdrop, List.append_assoc]

theorem bounds (h : Patched n es s out) : ∀ e ∈ es, n ≤ e.start ∧ e.start ≤ e.stop ∧ e.stop ≤ n + s.length := by
  induction h with
  | done n s => simp
  | keep front _ ih =>
    intro e he
    have hbounds := ih e he
    rw [List.length_append]
    omega
  | splice old new c _ ih =>
    rw [List.length_append, List.length_cons]
    refine List.forall_mem_cons.2 ⟨⟨Nat.le_refl _, Nat.le_add_right _ _, ?_⟩, fun e he => ?_⟩
    · exact Nat.add_le_add_left (Nat.le_add_right _ _) _
    · have hbounds := ih e he
      omega

theorem apart (h : Patched n es s out) : es.Pairwise fun a b => a.stop < b.start := by
  induction h with
  | done n s => exact .nil
  | keep front _ ih => exact ih
  | splice old new c hrest ih => exact List.pairwise_cons.2 ⟨fun e he => (hrest.bounds e he).1, ih⟩

/-- The splices that take a result back. -/
theorem restore (h : Patched n es s out) (m : Nat) : ∃ us, Patched m us out s ∧
    ∀ pre pre' : List α, pre.length = n → pre'.length = m →
      List.Forall₂ (fun e u => Splice.Restores u e (pre ++ s) (pre' ++ out)) es us := by
  induction h generalizing m with
  | done n s => exact ⟨[], .done m s, fun _ _ _ _ => .nil⟩
  | keep front _ ih =>
    obtain ⟨us, hpatched, hrestores⟩ := ih (m + front.length)
    refine ⟨us, hpatched.keep front, fun pre pre' hpre hpre' => ?_⟩
    have hfront := hrestores (pre ++ front) (pre' ++ front) (by rw [List.length_append, hpre]) (by rw [List.length_append, hpre'])
    rwa [List.append_assoc, List.append_assoc] at hfront
  | splice old new c _ ih =>
    obtain ⟨us, hpatched, hrestores⟩ := ih (m + new.length + 1)
    refine ⟨⟨m, m + new.length, old⟩ :: us, hpatched.splice new old c, fun pre pre' hpre hpre' => .cons ⟨?_, ?_⟩ ?_⟩
    · rw [← hpre]
      exact (extract_middle rfl).symm
    · rw [← hpre']
      exact extract_middle rfl
    · simpa using hrestores (pre ++ (old ++ [c])) (pre' ++ (new ++ [c])) (by simp [hpre, Nat.add_assoc])
        (by simp [hpre', Nat.add_assoc])

theorem spliced (h : Patched 0 es s out) : Spliced es s out := by
  obtain ⟨us, hpatched, hrestores⟩ := h.restore 0
  refine ⟨(h.spliceAll_eq [] rfl).symm, fun e he => ?_, h.apart, us, hrestores [] [] rfl rfl, hpatched.apart, ?_⟩
  · have hbounds := h.bounds e he
    omega
  · exact hpatched.spliceAll_eq [] rfl

end Patched

end EmailMarkup.Text
