import Mathlib
import Eel.Program.Numbering

/-!
Numbers of names, once given, stay.

A numbering only grows at its end, so whoever asked early sees the same number
as whoever asks late.
-/

namespace Eel.Numbering

open List

variable {α : Type} [BEq α] {n : Numbering α} {name : α} {i : Nat} {names : List α}

theorem names_prefix_resolve (n : Numbering α) (name : α) :
    n.names <+: (n.resolve name).2.names := by
  unfold resolve
  split
  · exact prefix_rfl
  · exact prefix_append _ _

/-- Whoever finds a number finds the same one later. -/
theorem find?_mono {m : Numbering α} (hfront : n.names <+: m.names) (h : n.find? name = some i) :
    m.find? name = some i := by
  obtain ⟨rest, hrest⟩ := hfront
  rw [find?] at h
  rw [find?, ← hrest, findIdx?_append]
  simp [h]

theorem idxOf_of_find? (h : n.find? name = some i) : n.names.idxOf name = i := by
  rw [List.idxOf, findIdx_eq_getD_findIdx?, show n.names.findIdx? (· == name) = some i from h]
  rfl

/-- Numbers names one after another. -/
def addAll (n : Numbering α) (names : List α) : Numbering α :=
  names.foldl (fun n name => (n.resolve name).2) n

theorem addAll_append (n : Numbering α) (first second : List α) :
    n.addAll (first ++ second) = (n.addAll first).addAll second :=
  foldl_append

/-- No other names get numbers. -/
theorem mem_of_mem_addAll (h : name ∈ (n.addAll names).names) : name ∈ n.names ∨ name ∈ names := by
  induction names generalizing n with
  | nil => exact .inl h
  | cons first rest ih =>
    rw [mem_cons]
    rcases ih h with hname | hname
    · cases hfind : n.find? first with
      | some i =>
        simp only [resolve, hfind] at hname
        exact .inl hname
      | none =>
        simp only [resolve, hfind, mem_append, mem_singleton] at hname
        exact hname.imp_right .inl
    · exact .inr (.inr hname)

variable [LawfulBEq α]

theorem getElem?_of_find? (h : n.find? name = some i) : n.names[i]? = some name := by
  obtain ⟨hi, hname, -⟩ := findIdx?_eq_some_iff_getElem.mp h
  rw [getElem?_eq_getElem hi]
  simpa using hname

/-- The number that is given is the one that is found from then on. -/
theorem find?_resolve (n : Numbering α) (name : α) :
    (n.resolve name).2.find? name = some (n.resolve name).1 := by
  unfold resolve
  split
  · assumption
  · rename_i hnone
    simp only [find?] at hnone ⊢
    simp [findIdx?_append, hnone, size]

/-- A name that has a number keeps one, and a name of the list gets one. -/
theorem exists_find?_addAll (names : List α) (n : Numbering α)
    (h : (∃ i, n.find? name = some i) ∨ name ∈ names) :
    ∃ i, (n.addAll names).find? name = some i := by
  induction names generalizing n with
  | nil => simpa [addAll] using h
  | cons first rest ih =>
    apply ih
    rcases h with ⟨i, hi⟩ | hname
    · exact .inl ⟨i, find?_mono (names_prefix_resolve n first) hi⟩
    · rcases mem_cons.mp hname with rfl | hname
      · exact .inl ⟨_, find?_resolve n name⟩
      · exact .inr hname

theorem exists_find?_ofList (h : name ∈ names) : ∃ i, (ofList names).find? name = some i :=
  exists_find?_addAll names {} (.inr h)

/-- Names are numbered once. -/
theorem nodup_resolve (h : n.names.Nodup) (name : α) : (n.resolve name).2.names.Nodup := by
  unfold resolve
  split
  · exact h
  · rename_i hnone
    have hname : name ∉ n.names := by
      intro hmem
      have := findIdx?_eq_none_iff.mp hnone name hmem
      simp at this
    simpa [nodup_append] using ⟨h, fun a ha => fun heq => hname (heq ▸ ha)⟩

theorem nodup_addAll (h : n.names.Nodup) (names : List α) : (n.addAll names).names.Nodup := by
  induction names generalizing n with
  | nil => exact h
  | cons name rest ih => exact ih (nodup_resolve h name)

theorem nodup_ofList (names : List α) : (ofList names).names.Nodup := nodup_addAll nodup_nil names

/-- The names of a list are numbered in the order in which they first stand
there. -/
theorem names_ofList (names : List α) : (ofList names).names = names.eraseDups := by
  induction names using List.reverseRecOn with
  | nil => rfl
  | append_singleton names name ih =>
    have hlast : ofList (names ++ [name]) = ((ofList names).resolve name).2 := foldl_concat _ _ _ _
    have hfind : (ofList names).find? name = none ↔ name ∉ names := by
      rw [find?, findIdx?_eq_none_iff, ih]
      simp only [mem_eraseDups, beq_eq_false_iff_ne]
      exact ⟨fun h hmem => h name hmem rfl, fun h x hx heq => h (heq ▸ hx)⟩
    rw [hlast, resolve, eraseDups_append, ← ih]
    cases hname : (ofList names).find? name with
    | none => simp [List.removeAll, hfind.mp hname, eraseDups_cons]
    | some i =>
      have hmem : name ∈ names := by
        by_contra hnew
        simp [hfind.mpr hnew] at hname
      simp [List.removeAll, hmem]

end Eel.Numbering
