import Mathlib.Data.List.Forall2

/-!
# Computations that return exactly under a condition

A checker threads a state and throws. `Accepts` says under which condition it returns, and what is
known then; the rules put the conditions of its parts together.
-/

namespace Acceptance

universe u

variable {ε σ α β : Type u}

/-- The computation with this result returns exactly if `fits`, and then `post` holds. -/
def Accepts (result : Except ε (α × σ)) (fits : Prop) (post : α → σ → Prop) : Prop :=
  (fits ∧ ∃ value state, result = .ok (value, state) ∧ post value state) ∨
    (¬fits ∧ ∃ error, result = .error error)

variable {s s' : σ} {a : α} {c c' : Prop} {P : α → σ → Prop} {Q : β → σ → Prop}

namespace Accepts

theorem pure (h : P a s) : Accepts ((Pure.pure a : StateT σ (Except ε) α) s) True P :=
  .inl ⟨trivial, a, s, rfl, h⟩

variable {x : StateT σ (Except ε) α}

theorem bind {f : α → StateT σ (Except ε) β} (h : Accepts (x s) c P)
    (hnext : ∀ a s', P a s' → Accepts (f a s') c' Q) : Accepts ((x >>= f) s) (c ∧ c') Q := by
  rcases h with ⟨hc, a, s', hx, hP⟩ | ⟨hc, e, hx⟩
  · have hrun : (x >>= f) s = f a s' := by
      show (x s >>= fun p => f p.1 p.2) = f a s'
      rw [hx]
      rfl
    rw [hrun]
    rcases hnext a s' hP with ⟨hc', b, t, hf, hQ⟩ | ⟨hc', e, hf⟩
    · exact .inl ⟨⟨hc, hc'⟩, b, t, hf, hQ⟩
    · exact .inr ⟨fun h => hc' h.2, e, hf⟩
  · refine .inr ⟨fun h => hc h.1, e, ?_⟩
    show (x s >>= fun p => f p.1 p.2) = .error e
    rw [hx]
    rfl

variable {res : Except ε (α × σ)}

theorem congr (h : Accepts res c P) (hc : c ↔ c') : Accepts res c' P := by
  rwa [← propext hc]

theorem weaken {P' : α → σ → Prop} (h : Accepts res c P)
    (hP : ∀ a s, P a s → P' a s) : Accepts res c P' := by
  rcases h with ⟨hc, a, s, hx, hpost⟩ | hfail
  · exact .inl ⟨hc, a, s, hx, hP a s hpost⟩
  · exact .inr hfail

theorem of_ok (h : Accepts res c P) (hok : res = .ok (a, s)) : c ∧ P a s := by
  rcases h with ⟨hc, a', s', hx, hP⟩ | ⟨-, e, hx⟩
  · cases hx.symm.trans hok
    exact ⟨hc, hP⟩
  · cases hx.symm.trans hok

theorem isOk_iff (h : Accepts res c P) : (∃ value, res = .ok value) ↔ c := by
  constructor
  · rintro ⟨⟨a, s⟩, hok⟩
    exact (h.of_ok hok).1
  · intro hc
    rcases h with ⟨-, a, s, hx, -⟩ | ⟨hnot, -⟩
    · exact ⟨(a, s), hx⟩
    · exact absurd hc hnot

theorem bind_pure {f : α → β} (h : Accepts (x s) c P)
    (hQ : ∀ a s', P a s' → Q (f a) s') : Accepts ((x >>= fun a => Pure.pure (f a)) s) c Q :=
  (h.bind fun a s' hP => Accepts.pure (hQ a s' hP)).congr (and_iff_left trivial)

/-- A list of checks passes when each of them does, if none of them changes the state; `ys` are
what the elements stand for. -/
theorem forM {γ : Type*} {f : α → StateT σ (Except ε) PUnit} {fits : γ → Prop}
    {R : γ → α → Prop} {ys : List γ} {xs : List α} (hxs : List.Forall₂ R ys xs)
    (h : ∀ y x, R y x → Accepts (f x s) (fits y) fun _ s' => s' = s) :
    Accepts ((xs.forM f) s) (∀ y ∈ ys, fits y) fun _ s' => s' = s := by
  induction hxs with
  | nil => exact .inl ⟨by simp, _, s, rfl, rfl⟩
  | @cons y x ys xs hyx _ ih =>
    have hbind : Accepts ((f x >>= fun _ => xs.forM f) s) (fits y ∧ ∀ y ∈ ys, fits y)
        fun _ s' => s' = s := (h y x hyx).bind fun _ s' hs => hs ▸ ih
    exact hbind.congr List.forall_mem_cons.symm

end Accepts

end Acceptance
