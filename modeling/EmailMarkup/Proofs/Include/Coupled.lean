import EmailMarkup.Error
/-!
# Actions that run in step

Two actions of a monad are coupled when one action has both of them as its halves: it yields pairs of
results in a relation, and leaving out either half gives the one or the other action. So coupled
actions have the same effects in the same order and fail together with the same error; nothing is
assumed of the monad but its laws.
-/
namespace EmailMarkup

universe u v

variable {m : Type u → Type v} [Monad m] {α β γ δ : Type u}

/-- `x` and `y` run in step and have results in the relation `R`. -/
def Coupled (R : α → β → Prop) (x : m α) (y : m β) : Prop :=
  ∃ z : m { p : α × β // R p.1 p.2 }, (fun p => p.1.1) <$> z = x ∧ (fun p => p.1.2) <$> z = y

namespace Coupled

variable [LawfulMonad m] {R : α → β → Prop} {S : γ → δ → Prop} {x : m α} {y : m β}

theorem pure {a : α} {b : β} (h : R a b) : Coupled R (pure a : m α) (pure b) :=
  ⟨Pure.pure ⟨(a, b), h⟩, by simp, by simp⟩

theorem refl (x : m α) : Coupled Eq x x :=
  ⟨(fun a => ⟨(a, a), rfl⟩) <$> x, by simp, by simp⟩

theorem bind {f : α → m γ} {g : β → m δ} (h : Coupled R x y)
    (hk : ∀ a b, R a b → Coupled S (f a) (g b)) : Coupled S (x >>= f) (y >>= g) := by
  obtain ⟨z, rfl, rfl⟩ := h
  refine ⟨z >>= fun p => Classical.choose (hk p.1.1 p.1.2 p.2), ?_, ?_⟩
  · simp only [map_bind, bind_map_left]
    exact congrArg (z >>= ·) (funext fun p => (Classical.choose_spec (hk p.1.1 p.1.2 p.2)).1)
  · simp only [map_bind, bind_map_left]
    exact congrArg (z >>= ·) (funext fun p => (Classical.choose_spec (hk p.1.1 p.1.2 p.2)).2)

/-- The same action on both sides. -/
theorem bind_same {f : α → m γ} {g : α → m δ} (x : m α) (hk : ∀ a, Coupled S (f a) (g a)) :
    Coupled S (x >>= f) (x >>= g) :=
  (refl x).bind fun a _ e => e ▸ hk a

theorem mono {R' : α → β → Prop} (h : Coupled R x y) (hR : ∀ a b, R a b → R' a b) : Coupled R' x y := by
  obtain ⟨z, rfl, rfl⟩ := h
  exact ⟨(fun p => ⟨p.1, hR _ _ p.2⟩) <$> z, by simp, by simp⟩

/-- Functions that agree on related results see no difference. -/
theorem map_eq {f : α → γ} {g : β → γ} (h : Coupled R x y) (hR : ∀ a b, R a b → f a = g b) :
    f <$> x = g <$> y := by
  obtain ⟨z, rfl, rfl⟩ := h
  rw [Functor.map_map, Functor.map_map]
  exact congrArg (· <$> z) (funext fun p => hR _ _ p.2)

end Coupled

/-- Failures with the same error are coupled. -/
theorem Coupled.throw {m : Type → Type} [Monad m] [LawfulMonad m] {α β : Type} {R : α → β → Prop} (e : Error) :
    Coupled R (throw e : ExceptT Error m α) (throw e : ExceptT Error m β) :=
  ⟨MonadExcept.throw e, by apply ExceptT.ext; simp, by apply ExceptT.ext; simp⟩

/-- A result that is there without any effect. -/
theorem Coupled.lift {m : Type → Type} [Monad m] [LawfulMonad m] {α : Type} (x : Except Error α) :
    Coupled (fun a b => a = b ∧ x = .ok a) (liftM x : ExceptT Error m α) (liftM x) := by
  cases x with
  | ok a => exact .pure ⟨rfl, rfl⟩
  | error e => exact .throw e

end EmailMarkup
