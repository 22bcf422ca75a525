import Mathlib

/-!
Computations that may fail, with or without a state, taken apart; and what is
found in lists.
-/

namespace Eel

open List

variable {σ ε α β γ : Type} {s s' : σ} {ys : List β} {x : Except ε α} {f : α → Except ε β}
  {y : Except ε β} {a : α}

/-- Two steps succeed when the first does and the second does behind it. -/
theorem Except.bind_eq_ok {b : β} : (x >>= f) = .ok b ↔ ∃ a, x = .ok a ∧ f a = .ok b := by
  cases x <;> simp [bind, Except.bind]

theorem bind_eq_ok {x : StateT σ (Except ε) α} {f : α → StateT σ (Except ε) β} {r : β × σ} :
    (x >>= f) s = .ok r ↔ ∃ a s₁, x s = .ok (a, s₁) ∧ f a s₁ = .ok r := by
  change (x s >>= fun p => f p.1 p.2) = .ok r ↔ _
  simp only [Except.bind_eq_ok, Prod.exists]

theorem pure_eq_ok {b : α} : (pure a : StateT σ (Except ε) α) s = .ok (b, s') ↔ a = b ∧ s = s' := by
  change Except.ok (a, s) = _ ↔ _
  simp

/-- The error of a computation that has failed. -/
def failure? : Except ε α → Option ε
  | .ok _ => none
  | .error e => some e

theorem failure?_eq_none_iff : failure? x = none ↔ ∃ a, x = .ok a := by
  cases x <;> simp [failure?]

theorem failure?_eq_some_iff {e : ε} : failure? x = some e ↔ x = .error e := by
  cases x <;> simp [failure?]

/-- Each element gives the result at its place. -/
theorem Except.forall₂_of_mapM {xs : List α} (h : xs.mapM f = .ok ys) :
    List.Forall₂ (fun x y => f x = .ok y) xs ys := by
  induction xs generalizing ys with
  | nil =>
    obtain rfl : [] = ys := Except.ok.inj h
    exact .nil
  | cons x xs ih =>
    simp only [mapM_cons, Except.bind_eq_ok] at h
    obtain ⟨y, hy, rest, hrest, hys⟩ := h
    obtain rfl : y :: rest = ys := Except.ok.inj hys
    exact .cons hy (ih hrest)

theorem exists_of_forall₂ {R : α → β → Prop} {xs : List α} (h : List.Forall₂ R xs ys) :
    ∀ y ∈ ys, ∃ x ∈ xs, R x y := by
  induction h with
  | nil => simp
  | cons hxy _ ih =>
    simp only [mem_cons, forall_eq_or_imp, exists_eq_or_imp]
    exact ⟨.inl hxy, fun y hy => .inr (ih y hy)⟩

theorem getElem?_of_forall₂ {R : α → β → Prop} {xs : List α} (h : List.Forall₂ R xs ys)
    {k : Nat} {x : α} (hx : xs[k]? = some x) : ∃ y, ys[k]? = some y ∧ R x y := by
  obtain ⟨hk, rfl⟩ := List.getElem?_eq_some_iff.mp hx
  have hk' : k < ys.length := h.length_eq ▸ hk
  exact ⟨ys[k], getElem?_eq_getElem hk', h.get hk hk'⟩

/-- Different elements give different results, if none is that of two
elements. -/
theorem nodup_of_forall₂ {R : α → β → Prop} {xs : List α} (h : List.Forall₂ R xs ys)
    (hinj : ∀ x x' y, R x y → R x' y → x = x') (hxs : xs.Nodup) : ys.Nodup := by
  induction h with
  | nil => exact .nil
  | cons hxy hrest ih =>
    rw [nodup_cons] at hxs ⊢
    refine ⟨fun hy => ?_, ih hxs.2⟩
    obtain ⟨x', hx', hx'y⟩ := exists_of_forall₂ hrest _ hy
    exact hxs.1 (hinj _ _ _ hxy hx'y ▸ hx')

theorem forall₂_trans {R : α → β → Prop} {S : β → γ → Prop} {T : α → γ → Prop} {xs : List α}
    {zs : List γ} (h : ∀ x y z, R x y → S y z → T x z) (hxs : List.Forall₂ R xs ys)
    (hys : List.Forall₂ S ys zs) : List.Forall₂ T xs zs := by
  induction hxs generalizing zs with
  | nil =>
    cases hys
    exact .nil
  | cons hxy _ ih =>
    cases hys with
    | cons hyz hrest => exact .cons (h _ _ _ hxy hyz) (ih hrest)

theorem map_eq_of_forall₂ {f : α → γ} {g : β → γ} {xs : List α}
    (h : List.Forall₂ (fun x y => f x = g y) xs ys) : xs.map f = ys.map g := by
  have hmap := forall₂_map_left_iff.mpr (forall₂_map_right_iff.mpr h)
  rwa [forall₂_eq_eq_eq] at hmap

theorem Option.mapM_eq_some_iff {f : α → Option β} {xs : List α} :
    xs.mapM f = some ys ↔ List.Forall₂ (fun x y => f x = some y) xs ys := by
  induction xs generalizing ys with
  | nil => simp [eq_comm]
  | cons x xs ih =>
    rw [mapM_cons, forall₂_cons_left_iff]
    simp only [Option.bind_eq_bind, Option.bind_eq_some_iff, Option.pure_def, Option.some.injEq, ih]
    grind

theorem Option.exists_mapM_iff {f : α → Option β} {xs : List α} :
    (∃ ys, xs.mapM f = some ys) ↔ ∀ x ∈ xs, ∃ y, f x = some y := by
  simp only [mapM_eq_some_iff]
  induction xs with
  | nil => simp
  | cons x xs ih =>
    rw [forall_mem_cons, ← ih]
    simp only [forall₂_cons_left_iff]
    grind

/-- Each result comes from one of the elements. -/
theorem Except.mapM_eq_ok {xs : List α} (h : xs.mapM f = .ok ys) :
    ∀ y ∈ ys, ∃ x ∈ xs, f x = .ok y :=
  exists_of_forall₂ (forall₂_of_mapM h)

theorem Except.exists_ok_of_isOk (h : x.isOk = true) : ∃ a, x = .ok a := by
  cases x with
  | error e => cases h
  | ok a => exact ⟨a, rfl⟩

theorem Except.toOption_eq_some_iff : x.toOption = some a ↔ x = .ok a := by
  cases x <;> simp [Except.toOption]

/-- Two computations that both fail, or both succeed with results that belong
together. -/
inductive Parallel (R : α → β → Prop) : Except ε α → Except ε β → Prop
  | ok {a : α} {b : β} (h : R a b) : Parallel R (.ok a) (.ok b)
  | error {e e' : ε} : Parallel R (.error e) (.error e')

namespace Parallel

variable {α' β' : Type} {R : α → β → Prop} {S : α' → β' → Prop} {g : β → Except ε β'}

theorem bind {f : α → Except ε α'} (h : Parallel R x y)
    (hnext : ∀ a b, R a b → Parallel S (f a) (g b)) : Parallel S (x >>= f) (y >>= g) := by
  cases h with
  | ok h => exact hnext _ _ h
  | error => exact .error

theorem mapM {f : α → Except ε α'} {xs : List α} (hxs : List.Forall₂ R xs ys)
    (h : ∀ x y, R x y → Parallel S (f x) (g y)) :
    Parallel (List.Forall₂ S) (xs.mapM f) (ys.mapM g) := by
  induction hxs with
  | nil => exact .ok .nil
  | cons hxy _ ih =>
    rw [mapM_cons, mapM_cons]
    exact (h _ _ hxy).bind fun a b hab => ih.bind fun as bs hrest => .ok (.cons hab hrest)

theorem exists_ok (h : Parallel R (.ok a) y) : ∃ b, y = .ok b ∧ R a b := by
  cases h with
  | ok h => exact ⟨_, rfl, h⟩

end Parallel

section Keys

variable [BEq β] [LawfulBEq β] {key : α → β} {xs : List α} {b : β}

/-- Where keys are told apart, an element is found by its own. -/
theorem find?_key_eq_some_iff (h : (xs.map key).Nodup) {x : α} :
    xs.find? (key · == b) = some x ↔ x ∈ xs ∧ key x = b := by
  constructor
  · intro hx
    exact ⟨mem_of_find?_eq_some hx, by simpa using find?_some hx⟩
  · rintro ⟨hx, rfl⟩
    cases hfind : xs.find? (key · == key x) with
    | none => simpa using find?_eq_none.mp hfind x hx
    | some y =>
      have hkey : key y = key x := by simpa using find?_some hfind
      rw [inj_on_of_nodup_map h (mem_of_find?_eq_some hfind) hx hkey]

theorem findIdx?_key_eq_some_iff (h : (xs.map key).Nodup) {i : Nat} :
    xs.findIdx? (key · == b) = some i ↔ ∃ x, xs[i]? = some x ∧ key x = b := by
  constructor
  · intro hi
    obtain ⟨hlt, hfound, -⟩ := findIdx?_eq_some_iff_getElem.mp hi
    exact ⟨xs[i], getElem?_eq_getElem hlt, by simpa using hfound⟩
  · rintro ⟨x, hx, rfl⟩
    obtain ⟨hlt, rfl⟩ := List.getElem?_eq_some_iff.mp hx
    refine findIdx?_eq_some_iff_getElem.mpr ⟨hlt, by simp, fun j hj heq => ?_⟩
    have hlength : j < xs.length := Nat.lt_trans hj hlt
    have hsame : (xs.map key)[j]? = (xs.map key)[i]? := by simpa [hlt, hlength] using heq
    exact absurd ((getElem?_inj (by simpa using hlength) h).mp hsame) (Nat.ne_of_lt hj)

end Keys

end Eel
