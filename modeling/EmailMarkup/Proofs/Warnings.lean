import Mathlib.Data.List.Nodup
import EmailMarkup.Diagnostics
import EmailMarkup.Proofs.Text.Search
/-!
# Which warnings are recorded

Of the warnings of a compile, those are recorded whose shown text is new (`record_entries_eq`). The shown text does not
tell where the component ends, so different warnings can be shown alike: exactly those where one component goes on, with
a closing bracket, into what is the message of the other (`shown_eq_iff`).
-/
namespace EmailMarkup

open EmailMarkup.Text

/-- The warnings of a sequence of calls, each recorded in turn. -/
def Diagnostics.record (calls : List Diagnostic) : Diagnostics :=
  calls.foldl (fun ds d => ds.warn d.component d.message) {}

namespace Diagnostic

/-- A bracket in the message of the first ends the component of the second, and the text before it belongs to the
component there. -/
def RunsOn (d e : Diagnostic) : Prop :=
  ∃ between, e.component = d.component ++ "] " ++ between ∧ d.message = between ++ "] " ++ e.message

/-! ## Warnings that are shown alike -/

theorem toList_shown (d : Diagnostic) :
    d.shown.toList = '[' :: (d.component.toList ++ ']' :: ' ' :: d.message.toList) := by
  simp [shown, toString]

theorem RunsOn.shown_eq {d e : Diagnostic} (h : d.RunsOn e) : d.shown = e.shown := by
  obtain ⟨between, hcomponent, hmessage⟩ := h
  apply String.toList_inj.1
  simp [toList_shown, hcomponent, hmessage]

theorem RunsOn.bracket_mem {d e : Diagnostic} (h : d.RunsOn e) : ']' ∈ e.component.toList := by
  obtain ⟨between, hcomponent, -⟩ := h
  simp [hcomponent]

theorem RunsOn.ne {d e : Diagnostic} (h : d.RunsOn e) : d ≠ e := by
  obtain ⟨between, hcomponent, -⟩ := h
  rintro rfl
  have hlength := congrArg (fun s : String => s.toList.length) hcomponent
  simp at hlength

/-- The component of the second ends behind that of the first. The space that follows the bracket of the first is not the
bracket of the second. -/
theorem runsOn_of_toList {d e : Diagnostic} {u : List Char} (hcomponent : e.component.toList = d.component.toList ++ ']' :: u)
    (hmessage : ' ' :: d.message.toList = u ++ ']' :: ' ' :: e.message.toList) : d.RunsOn e := by
  cases u with
  | nil => cases hmessage
  | cons c between =>
    obtain ⟨rfl, hrest⟩ := List.cons.inj hmessage
    replace hrest : d.message.toList = between ++ ']' :: ' ' :: e.message.toList := hrest
    exact ⟨String.ofList between, String.toList_inj.1 (by simp [hcomponent]), String.toList_inj.1 (by simp [hrest])⟩

theorem shown_eq_iff {d e : Diagnostic} : d.shown = e.shown ↔ d = e ∨ d.RunsOn e ∨ e.RunsOn d := by
  constructor
  · intro h
    have hlist := congrArg String.toList h
    rw [toList_shown, toList_shown] at hlist
    rcases append_cons_cases (List.cons.inj hlist).2 with ⟨u, hcomponent, hmessage⟩ | ⟨hcomponent, -, hmessage⟩ |
      ⟨u, hcomponent, hmessage⟩
    · exact .inr (.inl (runsOn_of_toList hcomponent hmessage))
    · obtain ⟨c, m⟩ := d
      obtain ⟨c', m'⟩ := e
      obtain rfl := String.toList_inj.1 hcomponent
      obtain rfl := String.toList_inj.1 (List.cons.inj hmessage).2
      exact .inl rfl
    · exact .inr (.inr (runsOn_of_toList hcomponent hmessage))
  · rintro (rfl | h | h)
    · rfl
    · exact h.shown_eq
    · exact h.shown_eq.symm

/-- Whether two warnings are shown alike. -/
def alike (d e : Diagnostic) : Bool := d.shown == e.shown

theorem alike_comm (d e : Diagnostic) : d.alike e = e.alike d := BEq.comm

theorem alike_eq_true_iff {d e : Diagnostic} : d.alike e = true ↔ d = e ∨ d.RunsOn e ∨ e.RunsOn d :=
  beq_iff_eq.trans shown_eq_iff

end Diagnostic

/-! ## The first of each kind -/

section

variable {α : Type} {same same' : α → α → Bool} {l : List α}

/-- Induction along the elements that are kept: after each of them, those that are the same as it are left out. -/
theorem eraseDupsBy_induction (same : α → α → Bool) {motive : List α → Prop} (nil : motive [])
    (cons : ∀ a l, motive (l.filter fun b => same b a = false) → motive (a :: l)) (l : List α) : motive l := by
  induction hn : l.length using Nat.strongRecOn generalizing l with
  | ind n ih =>
    cases l with
    | nil => exact nil
    | cons a l =>
      refine cons a l (ih _ ?_ _ rfl)
      rw [← hn, List.length_cons]
      exact Nat.lt_succ_of_le (List.length_filter_le _ _)

theorem eraseDupsBy_congr (h : ∀ a ∈ l, ∀ b ∈ l, same a b = same' a b) : l.eraseDupsBy same = l.eraseDupsBy same' := by
  induction l using eraseDupsBy_induction same with
  | nil => rfl
  | cons a l ih =>
    have hfilter : l.filter (fun b => same b a = false) = l.filter (fun b => same' b a = false) :=
      List.filter_congr fun b hb => by rw [h b (List.mem_cons_of_mem _ hb) a List.mem_cons_self]
    rw [List.eraseDupsBy_cons, List.eraseDupsBy_cons, ← hfilter, ih]
    intro b hb c hc
    exact h b (List.mem_cons_of_mem _ (List.mem_filter.1 hb).1) c (List.mem_cons_of_mem _ (List.mem_filter.1 hc).1)

theorem mem_of_mem_eraseDupsBy {b : α} (hb : b ∈ l.eraseDupsBy same) : b ∈ l := by
  induction l using eraseDupsBy_induction same with
  | nil => exact hb
  | cons a l ih =>
    rw [List.eraseDupsBy_cons] at hb
    rcases List.mem_cons.1 hb with rfl | hb
    · exact List.mem_cons_self
    · exact List.mem_cons_of_mem _ (List.mem_filter.1 (ih hb)).1

theorem pairwise_eraseDupsBy (same : α → α → Bool) (l : List α) :
    (l.eraseDupsBy same).Pairwise fun a b => same b a = false := by
  induction l using eraseDupsBy_induction same with
  | nil => exact .nil
  | cons a l ih =>
    rw [List.eraseDupsBy_cons]
    exact .cons (fun b hb => of_decide_eq_true (List.mem_filter.1 (mem_of_mem_eraseDupsBy hb)).2) ih

end

/-! ## Recording -/

namespace Diagnostics

theorem any_alike_iff (ds : Diagnostics) (d : Diagnostic) :
    ds.entries.any (·.alike d) = true ↔ ∃ e ∈ ds.entries, e.shown = d.shown := by
  simp [Diagnostic.alike]

/-- What a run adds are the first calls of each shown text that is not there yet. The induction is on the calls, and the
warnings so far vary. -/
theorem foldl_warn_entries (calls : List Diagnostic) (ds : Diagnostics) :
    (calls.foldl (fun ds d => ds.warn d.component d.message) ds).entries =
      ds.entries ++ (calls.filter fun d => !ds.entries.any (·.alike d)).eraseDupsBy Diagnostic.alike := by
  induction calls generalizing ds with
  | nil => simp
  | cons d calls ih =>
    rw [List.foldl_cons, ih, entries_warn]
    by_cases hany : ds.entries.any (·.alike d) = true
    · rw [if_pos ((any_alike_iff ds d).1 hany), List.filter_cons_of_neg (by simp [hany])]
    · rw [if_neg (mt (any_alike_iff ds d).2 hany), List.filter_cons_of_pos (by simp [hany]), List.eraseDupsBy_cons, List.filter_filter,
        List.append_assoc, List.singleton_append]
      have hfilter : (fun e => !(ds.entries ++ [d]).any (·.alike e)) =
          fun e => decide (Diagnostic.alike e d = false) && !ds.entries.any (·.alike e) := by
        funext e
        rw [List.any_append, Bool.not_or, Bool.and_comm, Diagnostic.alike_comm e d]
        simp
      rw [hfilter]

/-- The recorded warnings are the first calls of each shown text, in order. -/
theorem record_entries_eq (calls : List Diagnostic) : (record calls).entries = calls.eraseDupsBy Diagnostic.alike := by
  have hall : (calls.filter fun d => !({} : Diagnostics).entries.any (·.alike d)) = calls :=
    List.filter_eq_self.2 fun _ _ => rfl
  rw [record, foldl_warn_entries, hall, List.nil_append]

/-- A sequence of calls records the first call of each shown text. These are the different calls of the sequence, in the
order of first occurrence, exactly if none of them runs on into another. -/
theorem record_exact_iff (calls : List Diagnostic) :
    (record calls).entries = calls.eraseDupsBy (fun d e => d.shown == e.shown) ∧
    ((record calls).entries = calls.eraseDups ↔ ∀ d ∈ calls, ∀ e ∈ calls, ¬d.RunsOn e) := by
  refine ⟨record_entries_eq calls, ?_⟩
  rw [record_entries_eq]
  constructor
  · intro h d hd e he hruns
    -- both are among the different calls, and no two of those recorded are shown alike
    have hnodup : (calls.eraseDups.map Diagnostic.shown).Nodup := by
      rw [← h]
      exact (pairwise_eraseDupsBy Diagnostic.alike calls).map _ fun _ _ hab heq => ne_of_beq_false hab heq.symm
    exact hruns.ne (List.inj_on_of_nodup_map hnodup (List.mem_eraseDups.2 hd) (List.mem_eraseDups.2 he) hruns.shown_eq)
  · intro h
    refine eraseDupsBy_congr fun d hd e he => Bool.eq_iff_iff.2 ?_
    rw [Diagnostic.alike_eq_true_iff, beq_iff_eq]
    exact or_iff_left (not_or.2 ⟨h d hd e he, h e he d hd⟩)

/-- Two different warnings that are shown alike: only the first is recorded. -/
theorem record_brackets : (record [⟨"a", "b] c"⟩, ⟨"a] b", "c"⟩]).entries = [⟨"a", "b] c"⟩] ∧
    [(⟨"a", "b] c"⟩ : Diagnostic), ⟨"a] b", "c"⟩].eraseDups = [⟨"a", "b] c"⟩, ⟨"a] b", "c"⟩] := by
  decide

end Diagnostics

end EmailMarkup
