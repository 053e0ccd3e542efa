import Galfus.Heap.Object
import Galfus.Table.Basic

/-! # Identifiers that are used again

A manager gives out ids, first those that were freed. The generation of an id counts how
often it was given out, and a lease is an id with its generation.
-/

namespace Galfus

/-- `LocalIdManager`; the id that was freed last comes first in `freeList`. -/
structure IdManager where
  nextId : Option ℕ
  freeList : List ℕ
  activeIds : Finset ℕ

namespace IdManager

def new (startId : ℕ) : IdManager := ⟨some startId, [], ∅⟩

/-- The next id and the manager after it, `none` if there are no more ids. -/
def tryAllocate (m : IdManager) : Option (ℕ × IdManager) :=
  match m.freeList with
  | id :: rest => some (id, { m with freeList := rest, activeIds := insert id m.activeIds })
  | [] =>
    match m.nextId with
    | some id =>
      some (id, { m with
        nextId := if id < u32Max then some (id + 1) else none
        activeIds := insert id m.activeIds })
    | none => none

/-- Free an id; an id that is not in use is ignored. -/
def free (m : IdManager) (id : ℕ) : IdManager :=
  if id ∈ m.activeIds then
    { m with activeIds := m.activeIds.erase id, freeList := id :: m.freeList }
  else m

/-- Every id that can be given out is free. -/
structure Sound (m : IdManager) : Prop where
  freeList_notMem : ∀ id ∈ m.freeList, id ∉ m.activeIds
  freeList_nodup : m.freeList.Nodup
  freeList_lt : ∀ next, m.nextId = some next → ∀ id ∈ m.freeList, id < next
  active_lt : ∀ next, m.nextId = some next → ∀ id ∈ m.activeIds, id < next

variable {m m' : IdManager} {id : ℕ}

theorem sound_new (si : ℕ) : (new si).Sound := by
  constructor <;> simp [new]

theorem Sound.tryAllocate (h : m.Sound) (hal : m.tryAllocate = some (id, m')) :
    m'.Sound ∧ id ∉ m.activeIds ∧ m'.activeIds = insert id m.activeIds := by
  obtain ⟨hfr, hnd, hlt, hac⟩ := h
  unfold IdManager.tryAllocate at hal
  rcases hls : m.freeList with _ | ⟨first, r⟩
  · rw [hls] at hal
    rcases hnx : m.nextId with _ | next
    · simp [hnx] at hal
    · simp only [hnx, Option.some.injEq, Prod.mk.injEq] at hal
      obtain ⟨rfl, rfl⟩ := hal
      have hnw : next ∉ m.activeIds := fun hmm => (hac next hnx next hmm).false
      refine ⟨⟨by simp, by simp, by simp, ?_⟩, hnw, rfl⟩
      intro n hn id hid
      simp only [Option.ite_none_right_eq_some, Option.some.injEq] at hn
      rcases Finset.mem_insert.mp hid with rfl | hid
      · omega
      · have := hac next hnx id hid
        omega
  · simp only [hls, Option.some.injEq, Prod.mk.injEq] at hal hfr hnd hlt
    obtain ⟨rfl, rfl⟩ := hal
    obtain ⟨hfi, hrs⟩ := List.nodup_cons.mp hnd
    refine ⟨⟨?_, hrs, ?_, ?_⟩, hfr first (by simp), rfl⟩
    · intro id hid hmm
      rcases Finset.mem_insert.mp hmm with rfl | hmm
      · exact hfi hid
      · exact hfr id (by simp [hid]) hmm
    · exact fun n hn id hid => hlt n hn id (by simp [hid])
    · intro n hn id hid
      rcases Finset.mem_insert.mp hid with rfl | hid
      · exact hlt n hn id (by simp)
      · exact hac n hn id hid

theorem activeIds_free : (m.free id).activeIds = m.activeIds.erase id := by
  unfold free
  split
  · rfl
  · next h => exact (Finset.erase_eq_of_notMem h).symm

theorem Sound.free (h : m.Sound) : (m.free id).Sound := by
  unfold IdManager.free
  split
  · next hid =>
    obtain ⟨hf, hnd, hlt, ha⟩ := h
    constructor
    · intro k hk hm
      rcases List.mem_cons.mp hk with rfl | hk
      · exact Finset.notMem_erase _ _ hm
      · exact hf k hk (Finset.mem_of_mem_erase hm)
    · exact List.nodup_cons.mpr ⟨fun hm => hf id hm hid, hnd⟩
    · intro n hn k hk
      rcases List.mem_cons.mp hk with rfl | hk
      · exact ha n hn _ hid
      · exact hlt n hn k hk
    · exact fun n hn k hk => ha n hn k (Finset.mem_of_mem_erase hk)
  · exact h

end IdManager

/-- `RequestLease` and `FutureLease`. -/
structure Lease where
  id : ℕ
  generation : ℕ
  deriving DecidableEq, Repr, Ord

abbrev Generations := Table ℕ ℕ

namespace Generations

/-- The generation of an id, 0 if it was never given out. -/
def of (g : Generations) (id : ℕ) : ℕ := (g.lookup id).getD 0

/-- Count an id that is given out; the counter is a `u32` and wraps. -/
def bump (g : Generations) (id : ℕ) : Generations :=
  match g.lookup id with
  | some generation => g.insert id ((generation + 1) % (u32Max + 1))
  | none => g.insert id 1

def lease (g : Generations) (id : ℕ) : Lease := ⟨id, g.of id⟩

end Generations

end Galfus
