import EmailMarkup.Proofs.Diagnostics
/-!
# Compiling in two phases

A compile first reads a template and puts its includes in their places. That is where it can have effects; what it
makes of the expanded template is a function of it.
-/
namespace EmailMarkup

/-- Two steps that went well. -/
theorem run_bind_eq_ok {σ α β : Type} {x : ExceptT Error (StateM σ) α} {f : α → ExceptT Error (StateM σ) β} {s s'' : σ}
    {b : β} : (x >>= f).run.run s = (.ok b, s'') ↔
      ∃ a s', x.run.run s = (.ok a, s') ∧ (f a).run.run s' = (.ok b, s'') := by
  rw [ExceptT.run_bind, StateT.run_bind]
  rcases hx : x.run.run s with ⟨_ | a, s'⟩
  · constructor
    · intro h
      cases h
    · rintro ⟨a, s', h, -⟩
      cases h
  · constructor
    · intro h
      exact ⟨a, s', rfl, h⟩
    · rintro ⟨_, _, h, hf⟩
      cases h
      exact hf

namespace Compiler

variable {m : Type → Type}

def expanded [Monad m] (c : Configuration m) (source : String) : ExceptT Error m Template := do
  let t ← read c.limits source
  match c.resolver with
  | some resolve => Include.expand c.limits resolve t
  | none => pure t

theorem expanded_of_read [Monad m] [LawfulMonad m] {c : Configuration m} {source : String} {t : Template}
    (h : read c.limits source = .ok t) : expanded c source =
      match c.resolver with
      | some resolve => Include.expand c.limits resolve t
      | none => pure t := by
  rw [expanded, h]
  exact pure_bind t _

theorem compile_eq [Monad m] [LawfulMonad m] (c : Configuration m) (source : String) :
    compile c source = expanded c source >>= fun t => liftM (finish c t) := by
  rw [compile, expanded, bind_assoc]
  refine bind_congr fun t => ?_
  cases c.resolver <;> rfl

theorem run_compile_eq_ok {σ : Type} {c : Configuration (StateM σ)} {source : String} {s s' : σ} {out : Output} :
    (compile c source).run.run s = (.ok out, s') ↔
      ∃ t, (expanded c source).run.run s = (.ok t, s') ∧ finish c t = .ok out := by
  rw [compile_eq, run_bind_eq_ok]
  constructor
  · rintro ⟨t, s₁, ht, hf⟩
    cases hout : finish c t with
    | error e =>
      rw [hout] at hf
      cases hf
    | ok out' =>
      rw [hout] at hf
      cases hf
      exact ⟨t, ht, hout⟩
  · rintro ⟨t, ht, hf⟩
    exact ⟨t, s', ht, by rw [hf]; rfl⟩

/-- What is made of a rendered template. -/
theorem finish_eq_ok {c : Configuration m} {t : Template} {out : Output} : finish c t = .ok out ↔
    ∃ html h ds, renderTemplate c t = .ok (html, h, ds) ∧
      out = ⟨page c h html, h.metadata.title, h.metadata.preview, ds.entries⟩ := by
  constructor
  · intro hf
    obtain ⟨⟨html, h, ds⟩, hr, hout⟩ := bind_eq_ok.1 hf
    exact ⟨html, h, ds, hr, (Except.ok.inj hout).symm⟩
  · rintro ⟨html, h, ds, hr, rfl⟩
    exact bind_eq_ok.2 ⟨(html, h, ds), hr, rfl⟩

/-- A run that gave a result, from what the result has in one field. -/
theorem exists_of_map_eq {α β : Type} {f : α → β} {v : β} {r : Except Error α × Unit}
    (h : r.1.toOption.map f = some v) : ∃ a, r = (.ok a, ()) ∧ f a = v := by
  obtain ⟨_ | a, _⟩ := r
  · cases h
  · exact ⟨a, rfl, Option.some.inj h⟩

/-- A rendered mail, from what is left of the results. -/
theorem exists_of_rendered {c : Configuration (StateM Unit)} {source body : String} {h : Head}
    (hrendered : (((expanded c source).run.run ()).1.toOption.bind fun t =>
      (renderTemplate c t).toOption.map fun r => (r.1, r.2.1)) = some (body, h)) :
    ∃ t ds, (expanded c source).run.run () = (.ok t, ()) ∧ renderTemplate c t = .ok (body, h, ds) := by
  generalize (expanded c source).run.run () = r at *
  obtain ⟨_ | t, _⟩ := r
  · cases hrendered
  · have hmap : (renderTemplate c t).toOption.map (fun r => (r.1, r.2.1)) = some (body, h) := hrendered
    cases hresult : renderTemplate c t with
    | error e =>
      rw [hresult] at hmap
      cases hmap
    | ok r =>
      rw [hresult] at hmap
      obtain ⟨rfl, rfl⟩ := Prod.mk.inj (Option.some.inj hmap)
      exact ⟨t, r.2.2, rfl, hresult⟩

end Compiler

end EmailMarkup
