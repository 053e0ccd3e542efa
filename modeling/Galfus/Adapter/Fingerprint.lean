import Mathlib.Data.BitVec
import Galfus.Adapter.Surface

/-! # Contract fingerprints

A contract is identified by a hash of its name, version, direction and schema. Numbers enter the
hash with a fixed width, names as they are: where a name ends is not recorded.
-/

namespace Galfus

open List

/-- What a call of `hasher.update` adds: a name, or a number in `width` bytes. -/
inductive Update where
  | name (s : String)
  | word (width n : ℕ)

/-- `to_le_bytes`. -/
def leBytes : ℕ → ℕ → List UInt8
  | 0, _ => []
  | width + 1, n => .ofNat n :: leBytes width (n / 256)

namespace Update

def bytes : Update → List UInt8
  | name s => s.toUTF8.data.toList
  | word width n => leBytes width n

def nameLength : Update → Option ℕ
  | name s => some s.utf8ByteSize
  | word .. => none

def Fits : Update → Prop
  | name _ => True
  | word width n => n < 256 ^ width

end Update

namespace SurfaceSchema

open Update

mutual

/-- `write_fingerprint`, as the list of the updates. -/
def writeFingerprint : SurfaceSchema → List Update
  | null => [word 1 0]
  | bool => [word 1 1]
  | u16 => [word 1 15]
  | i32 => [word 1 2]
  | i64 => [word 1 3]
  | u32 => [word 1 4]
  | u64 => [word 1 5]
  | f32 => [word 1 6]
  | f64 => [word 1 7]
  | bytes => [word 1 8]
  | optional inner => word 1 9 :: writeFingerprint inner
  | list inner => word 1 10 :: writeFingerprint inner
  | tuple items => word 1 14 :: word 8 items.length :: writeItems items
  | struct n fields => word 1 11 :: name n :: word 8 fields.length :: writeFields fields
  | choice n variants => word 1 12 :: name n :: word 8 variants.length :: writeVariants variants
  | handle resource => [word 1 13, name resource]

def writeItems : List SurfaceSchema → List Update
  | [] => []
  | item :: items => writeFingerprint item ++ writeItems items

def writeFields : List (String × SurfaceSchema) → List Update
  | [] => []
  | (n, schema) :: fields => name n :: writeFingerprint schema ++ writeFields fields

def writeVariants : List (String × Option SurfaceSchema) → List Update
  | [] => []
  | (n, some payload) :: variants =>
    name n :: word 1 1 :: writeFingerprint payload ++ writeVariants variants
  | (n, none) :: variants => name n :: word 1 0 :: writeVariants variants

end

end SurfaceSchema

inductive SurfaceDirection where
  | toProvider | fromProvider

def SurfaceDirection.toU8 : SurfaceDirection → ℕ
  | toProvider => 0
  | fromProvider => 1

theorem SurfaceDirection.toU8_injective : toU8.Injective := by
  intro d e h
  cases d <;> cases e <;> first | rfl | cases h

/-- What `fingerprint` is called with. A vector has less than `2 ^ 64` elements. -/
@[ext]
structure Contract where
  name : String
  version : BitVec 32
  direction : SurfaceDirection
  schema : SurfaceSchema
  fits : ∀ u ∈ schema.writeFingerprint, u.Fits

namespace Contract

def updates (c : Contract) : List Update :=
  .name c.name :: .word 4 c.version.toNat :: .word 1 c.direction.toU8 :: c.schema.writeFingerprint

/-- `fingerprint`, for any hash function. -/
def fingerprint {δ : Type*} (hash : List UInt8 → δ) (c : Contract) : δ :=
  hash (c.updates.flatMap Update.bytes)

/-- The lengths of the names, in the order in which they are hashed. -/
def nameLengths (c : Contract) : List ℕ :=
  c.updates.filterMap Update.nameLength

end Contract

theorem length_leBytes (w n : ℕ) : (leBytes w n).length = w := by
  induction w generalizing n with
  | zero => rfl
  | succ w ih => rw [leBytes, length_cons, ih]

theorem leBytes_inj {w m n : ℕ} (hm : m < 256 ^ w) (hn : n < 256 ^ w)
    (h : leBytes w m = leBytes w n) : m = n := by
  induction w generalizing m n with
  | zero => omega
  | succ w ih =>
    rw [pow_succ] at hm hn
    obtain ⟨hb, hr⟩ := cons.inj h
    have hq := ih (Nat.div_lt_of_lt_mul (by omega)) (Nat.div_lt_of_lt_mul (by omega)) hr
    have hd : m % 256 = n % 256 := by
      simpa [UInt8.ofNat_eq_iff_mod_eq_toNat] using hb
    omega

/-- Two lists of updates that the hash does not tell apart, although their names have the same
lengths. -/
structure Blur (U V : List Update) : Prop where
  bytes : U.flatMap Update.bytes = V.flatMap Update.bytes
  lengths : U.filterMap Update.nameLength = V.filterMap Update.nameLength
  fits : ∀ u ∈ U ++ V, u.Fits

namespace Blur

variable {U V : List Update}

theorem word {w m n : ℕ} (h : Blur (.word w m :: U) (.word w n :: V)) : m = n ∧ Blur U V := by
  obtain ⟨hb, hl, hf⟩ := h
  simp only [flatMap_cons] at hb
  obtain ⟨hw, hb⟩ := append_inj hb ((length_leBytes w m).trans (length_leBytes w n).symm)
  exact ⟨leBytes_inj (hf (.word w m) (by simp)) (hf (.word w n) (by simp)) hw,
    hb, hl, fun u hu => hf u (by simp at hu ⊢; tauto)⟩

theorem name {s t : String} (h : Blur (.name s :: U) (.name t :: V)) : s = t ∧ Blur U V := by
  obtain ⟨hb, hl, hf⟩ := h
  obtain ⟨hst, hl⟩ := cons.inj hl
  simp only [flatMap_cons] at hb
  obtain ⟨hn, hb⟩ := append_inj hb hst
  exact ⟨String.toByteArray_inj.mp (ByteArray.ext (Array.toList_inj.mp hn)),
    hb, hl, fun u hu => hf u (by simp at hu ⊢; tauto)⟩

end Blur

section Decoding

open SurfaceSchema

mutual

theorem Blur.schema {U V : List Update} {s t : SurfaceSchema}
    (h : Blur (s.writeFingerprint ++ U) (t.writeFingerprint ++ V)) : s = t ∧ Blur U V := by
  cases s with
  | optional s =>
    cases t with
    | optional t =>
      obtain ⟨rfl, h₁⟩ := h.word.2.schema
      exact ⟨rfl, h₁⟩
    | _ => cases h.word.1
  | list s =>
    cases t with
    | list t =>
      obtain ⟨rfl, h₁⟩ := h.word.2.schema
      exact ⟨rfl, h₁⟩
    | _ => cases h.word.1
  | tuple ss =>
    cases t with
    | tuple ts =>
      obtain ⟨hl, h₁⟩ := h.word.2.word
      obtain ⟨rfl, h₂⟩ := h₁.items hl
      exact ⟨rfl, h₂⟩
    | _ => cases h.word.1
  | struct m fs =>
    cases t with
    | struct n gs =>
      obtain ⟨rfl, h₁⟩ := h.word.2.name
      obtain ⟨rfl, h₂⟩ := h₁.word.2.fields h₁.word.1
      exact ⟨rfl, h₂⟩
    | _ => cases h.word.1
  | choice m vs =>
    cases t with
    | choice n ws =>
      obtain ⟨rfl, h₁⟩ := h.word.2.name
      obtain ⟨rfl, h₂⟩ := h₁.word.2.variants h₁.word.1
      exact ⟨rfl, h₂⟩
    | _ => cases h.word.1
  | handle m =>
    cases t with
    | handle n =>
      obtain ⟨rfl, h₁⟩ := h.word.2.name
      exact ⟨rfl, h₁⟩
    | _ => cases h.word.1
  | _ =>
    cases t <;> first
      | exact ⟨rfl, h.word.2⟩
      | cases h.word.1

theorem Blur.items {U V : List Update} {ss ts : List SurfaceSchema}
    (h : Blur (writeItems ss ++ U) (writeItems ts ++ V)) (hl : ss.length = ts.length) :
    ss = ts ∧ Blur U V := by
  match ss, ts with
  | [], [] => exact ⟨rfl, h⟩
  | s :: ss, t :: ts =>
    simp only [writeItems, append_assoc] at h
    obtain ⟨rfl, h₁⟩ := h.schema
    obtain ⟨rfl, h₂⟩ := h₁.items (Nat.succ.inj hl)
    exact ⟨rfl, h₂⟩

theorem Blur.fields {U V : List Update} {fs gs : List (String × SurfaceSchema)}
    (h : Blur (writeFields fs ++ U) (writeFields gs ++ V)) (hl : fs.length = gs.length) :
    fs = gs ∧ Blur U V := by
  match fs, gs with
  | [], [] => exact ⟨rfl, h⟩
  | (m, s) :: fs, (n, t) :: gs =>
    simp only [writeFields, append_assoc, cons_append] at h
    obtain ⟨rfl, h₁⟩ := h.name
    obtain ⟨rfl, h₂⟩ := h₁.schema
    obtain ⟨rfl, h₃⟩ := h₂.fields (Nat.succ.inj hl)
    exact ⟨rfl, h₃⟩

theorem Blur.variants {U V : List Update} {vs ws : List (String × Option SurfaceSchema)}
    (h : Blur (writeVariants vs ++ U) (writeVariants ws ++ V)) (hl : vs.length = ws.length) :
    vs = ws ∧ Blur U V := by
  match vs, ws with
  | [], [] => exact ⟨rfl, h⟩
  | (m, some s) :: vs, (n, some t) :: ws =>
    simp only [writeVariants, append_assoc, cons_append] at h
    obtain ⟨rfl, h₁⟩ := h.name
    obtain ⟨rfl, h₂⟩ := h₁.word.2.schema
    obtain ⟨rfl, h₃⟩ := h₂.variants (Nat.succ.inj hl)
    exact ⟨rfl, h₃⟩
  | (m, none) :: vs, (n, none) :: ws =>
    obtain ⟨rfl, h₁⟩ := h.name
    obtain ⟨rfl, h₂⟩ := h₁.word.2.variants (Nat.succ.inj hl)
    exact ⟨rfl, h₂⟩
  | (m, some s) :: vs, (n, none) :: ws => cases h.name.2.word.1
  | (m, none) :: vs, (n, some t) :: ws => cases h.name.2.word.1

end

end Decoding

namespace Contract

theorem fits_updates (c : Contract) : ∀ u ∈ c.updates, u.Fits := by
  intro u hu
  simp only [updates, mem_cons] at hu
  rcases hu with rfl | rfl | rfl | hu
  · trivial
  · exact c.version.isLt
  · cases c.direction <;> simp [Update.Fits, SurfaceDirection.toU8]
  · exact c.fits u hu

/-- Contracts with the same fingerprint are the same just if their names have the same lengths. -/
theorem fingerprint_injective_iff {δ : Type*} {hash : List UInt8 → δ} (hi : hash.Injective)
    (a b : Contract) (hf : a.fingerprint hash = b.fingerprint hash) :
    a = b ↔ a.nameLengths = b.nameLengths := by
  refine ⟨congrArg nameLengths, fun h => ?_⟩
  have hs : Blur (a.updates ++ []) (b.updates ++ []) := by
    simp only [append_nil]
    refine ⟨hi hf, h, fun u hu => ?_⟩
    exact (mem_append.mp hu).elim (a.fits_updates u) (b.fits_updates u)
  obtain ⟨hn, h₁⟩ := hs.name
  obtain ⟨hv, h₂⟩ := h₁.word
  obtain ⟨hd, h₃⟩ := h₂.word
  exact Contract.ext hn (BitVec.eq_of_toNat_eq hv) (SurfaceDirection.toU8_injective hd) h₃.schema.1

/-- A struct with a handle and a field without data. -/
def handleThen (resource field : String) : Contract where
  name := "file"
  version := 1
  direction := .toProvider
  schema := .struct "open" [("a", .handle resource), (field, .null)]
  fits := by simp [SurfaceSchema.writeFingerprint, SurfaceSchema.writeFields, Update.Fits]

theorem fingerprint_injective_iff_handleThen :
    (handleThen "b" "cd").fingerprint id = (handleThen "bc" "d").fingerprint id ∧
      (handleThen "b" "cd").nameLengths ≠ (handleThen "bc" "d").nameLengths := by
  refine ⟨rfl, fun h => ?_⟩
  have he := (fingerprint_injective_iff Function.injective_id (handleThen "b" "cd")
    (handleThen "bc" "d") rfl).mpr h
  exact absurd (congrArg schema he) (by simp [handleThen])

theorem fingerprint_collision : handleThen "b" "cd" ≠ handleThen "bc" "d" ∧ ∀ hash : List UInt8 → ℕ,
      (handleThen "b" "cd").fingerprint hash = (handleThen "bc" "d").fingerprint hash :=
  ⟨ne_of_apply_ne schema (by simp [handleThen]), fun _ => rfl⟩

end Contract

end Galfus
