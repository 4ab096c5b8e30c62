import Mathlib.Data.List.Basic
import Mathlib.Tactic

/-!
# `dispatch_data_t` as a sequence of regions

A `dispatch_data_t` (`libdispatch-913.60.2/src/data.c`) is a leaf or a list of
records pointing into leaves. Every constructor drops empty parts
(`dispatch_data_create_concat`, lines 326–333; `dispatch_data_create_subrange`,
lines 372–373), so what `dispatch_data_apply` enumerates is a list of non-empty
buffers. The transforms see the object only through `dispatch_data_apply`,
`dispatch_data_get_size` and one-byte subrange maps.
-/

namespace Apple.Dispatch

/-- `uint8_t` buffers. -/
abbrev Bytes := List UInt8

/-- `SIZE_T_MAX` on a 64-bit target. -/
def sizeTMax : ℕ := 2 ^ 64 - 1

/-- `howmany(x, y)` of `<sys/param.h>`: `((x) + ((y) - 1)) / (y)`. -/
def howmany (x y : ℕ) : ℕ := (x + (y - 1)) / y

/-- The regions of a data object, in the order `dispatch_data_apply` visits
them. No region is empty. -/
structure DispatchData where
  regions : List Bytes
  regions_ne_nil : ∀ r ∈ regions, r ≠ []

namespace DispatchData

/-- The byte string a data object stands for. -/
def bytes (data : DispatchData) : Bytes := data.regions.flatten

/-- `dispatch_data_get_size` (`data.c`, lines 314–318). -/
def getSize (data : DispatchData) : ℕ := data.bytes.length

/-- A data object with one contiguous region; `dispatch_data_empty` when there
are no bytes. -/
def contiguous (b : Bytes) : DispatchData where
  regions := if b = [] then [] else [b]
  regions_ne_nil := by
    intro r hr
    split_ifs at hr with h
    · simp at hr
    · rw [List.mem_singleton.mp hr]; exact h

theorem contiguous_bytes (b : Bytes) : (contiguous b).bytes = b := by
  unfold contiguous bytes
  split_ifs with h <;> simp [h]

/-- `dispatch_data_create_subrange` (`data.c`, lines 366–375) on byte strings:
empty from `offset ≥ size` on, otherwise clipped at the end. -/
def createSubrange (data : DispatchData) (offset length : ℕ) : Bytes :=
  (data.bytes.drop offset).take length

/-- `_dispatch_data_subrange_map` (`transform.c`, lines 158–171): the bytes
mapped at `*ptr`, or `NULL` when fewer than `size` bytes are there. -/
def subrangeMap (data : DispatchData) (offset size : ℕ) : Option Bytes :=
  let subrange := data.createSubrange offset size
  if subrange.length = size then some subrange else none

end DispatchData

/-- The loop of `_dispatch_data_apply` (`data.c`, lines 579–585): `applier`
gets the offset of each region and its buffer; `none` is a callback that
returned false. -/
def applyRegions {σ : Type} (applier : ℕ → Bytes → σ → Option σ) :
    ℕ → List Bytes → σ → Option σ
  | _, [], st => some st
  | offset, r :: rest, st =>
    (applier offset r st).bind (applyRegions applier (offset + r.length) rest)

/-- `dispatch_data_apply` (`data.c`, lines 599–607), threading the `__block`
variables of the applier. -/
def dispatchDataApply {σ : Type} (data : DispatchData)
    (applier : ℕ → Bytes → σ → Option σ) (st : σ) : Option σ :=
  applyRegions applier 0 data.regions st

/-- What one region preserves, a whole `dispatch_data_apply` preserves:
`Inv p st` relates the state to the bytes `p` already visited. -/
theorem applyRegions_invariant {σ : Type} {applier : ℕ → Bytes → σ → Option σ}
    {Inv : Bytes → σ → Prop} {all : List Bytes}
    (hstep : ∀ p r s st, all.flatten = p ++ r ++ s → r ∈ all → Inv p st →
      ∃ st', applier p.length r st = some st' ∧ Inv (p ++ r) st') :
    ∀ (rest : List Bytes) (p : Bytes) (st : σ), (∀ r ∈ rest, r ∈ all) →
      all.flatten = p ++ rest.flatten → Inv p st →
      ∃ st', applyRegions applier p.length rest st = some st' ∧ Inv (p ++ rest.flatten) st' := by
  intro rest
  induction rest with
  | nil => intro p st _ _ h; exact ⟨st, rfl, by simpa using h⟩
  | cons r rest ih =>
    intro p st hmem hall h
    obtain ⟨st₁, h₁, hinv⟩ := hstep p r rest.flatten st (by simpa using hall)
      (hmem r (by simp)) h
    obtain ⟨st₂, h₂, hinv₂⟩ := ih (p ++ r) st₁ (fun x hx => hmem x (by simp [hx]))
      (by simpa using hall) hinv
    refine ⟨st₂, ?_, by simpa using hinv₂⟩
    rw [applyRegions, h₁]
    simpa using h₂

end Apple.Dispatch
