import Mathlib.Data.List.Forall2

/-! # Type tables

A module numbers its types: its table lists their kinds, and a kind refers to symbols and to
earlier types by their numbers. What a type denotes is what stands at each of its positions, with
declarations in the place of symbols.
-/

namespace Galfus

inductive PrimitiveType where
  | null | bool | int8 | int16 | int32 | int64 | uint8 | uint16 | uint32 | uint64 | float32
  | float64
  deriving DecidableEq

/-- The text of a default value is only shown. -/
inductive FunctionParameterType where
  | new (ty : ℕ)
  | rest (ty : ℕ)
  | withDefault (ty : ℕ) (defaultValue : Option String)
  deriving DecidableEq

namespace FunctionParameterType

def ty : FunctionParameterType → ℕ
  | new ty | rest ty | withDefault ty _ => ty

/-- The same kind of parameter, of another type and without the text of its default. -/
def retype (ty : ℕ) : FunctionParameterType → FunctionParameterType
  | new _ => new ty
  | rest _ => rest ty
  | withDefault _ _ => withDefault ty none

end FunctionParameterType

inductive TypeKind where
  | primitive (primitive : PrimitiveType)
  | named (symbol : ℕ)
  | path (root : ℕ) (segments : List String)
  | genericParameter (symbol : ℕ)
  | array (element : ℕ)
  | range (element : ℕ)
  | tuple (elements : List ℕ)
  | union (members : List ℕ)
  | function (parameters : List FunctionParameterType) (returnType : ℕ) (isExternal : Bool)
  | genericInstance (base : ℕ) (arguments : List ℕ)
  | error
  deriving DecidableEq

namespace TypeKind

def symbols : TypeKind → List ℕ
  | named symbol | path symbol _ | genericParameter symbol => [symbol]
  | _ => []

def children : TypeKind → List ℕ
  | array element | range element => [element]
  | tuple types | union types => types
  | function parameters returnType _ => parameters.map (·.ty) ++ [returnType]
  | genericInstance base arguments => base :: arguments
  | _ => []

/-- What is left of a kind without its symbols and types. -/
def shape : TypeKind → TypeKind
  | named _ => named 0
  | path _ segments => path 0 segments
  | genericParameter _ => genericParameter 0
  | array _ => array 0
  | range _ => range 0
  | tuple _ => tuple []
  | union _ => union []
  | function parameters _ isExternal => function (parameters.map (·.retype 0)) 0 isExternal
  | genericInstance _ _ => genericInstance 0 []
  | kind => kind

end TypeKind

variable {A B : List TypeKind} {i x : ℕ} {k : TypeKind} {path : List ℕ} {δ : Type}

/-- The kind at a position of a type. -/
def kindAt (types : List TypeKind) (i : ℕ) : List ℕ → Option TypeKind
  | [] => types[i]?
  | n :: path => do
    let c ← (← types[i]?).children[n]?
    kindAt types c path

/-- What stands at a position of a type: the shape, the number of its types, and the
declarations of its symbols. -/
def denote (types : List TypeKind) (declares : ℕ → δ) (i : ℕ) (path : List ℕ) :
    Option (TypeKind × ℕ × List δ) :=
  (kindAt types i path).map fun k => (k.shape, k.children.length, k.symbols.map declares)

/-- The symbol occurs in the type, at some position. -/
def Occurs (types : List TypeKind) (x i : ℕ) : Prop :=
  ∃ path k, kindAt types i path = some k ∧ x ∈ k.symbols

/-- A type only refers to earlier ones, as each was there when the type was interned. -/
def TypesOrdered (types : List TypeKind) : Prop :=
  ∀ i (k : TypeKind), types[i]? = some k → ∀ c ∈ k.children, c < i

/-- The other type has all that this one has, at the same positions. -/
def Denotes {δ : Type} (A : List TypeKind) (a : ℕ → δ) (B : List TypeKind) (b : ℕ → δ) (i j : ℕ) :
    Prop :=
  ∀ path v, denote A a i path = some v → denote B b j path = some v

theorem kindAt_mono (h : A <+: B) (hk : kindAt A i path = some k) : kindAt B i path = some k := by
  have hg {i : ℕ} {k : TypeKind} (hk : A[i]? = some k) : B[i]? = some k := by
    obtain ⟨hi, rfl⟩ := List.getElem?_eq_some_iff.mp hk
    exact List.prefix_iff_getElem?.mp h i hi
  induction path generalizing i with
  | nil => exact hg hk
  | cons n path ih =>
    simp only [kindAt, Option.bind_eq_bind, Option.bind_eq_some_iff] at hk ⊢
    obtain ⟨k', hk', c, hc, hk⟩ := hk
    exact ⟨k', hg hk', c, hc, ih hk⟩

theorem Denotes.mono {B' : List TypeKind} {a b : ℕ → δ} {j : ℕ} (h : B <+: B')
    (hd : Denotes A a B b i j) : Denotes A a B' b i j := by
  intro path v hv
  obtain ⟨k, hk, rfl⟩ := Option.map_eq_some_iff.mp (hd path v hv)
  exact Option.map_eq_some_iff.mpr ⟨k, kindAt_mono h hk, rfl⟩

/-- A type whose symbols are renamed denotes the same just if every symbol in it has the declaration
of its new name. -/
theorem denotes_iff_of_renamed {r : ℕ → ℕ} {a b : ℕ → δ} {j : ℕ} (h : Denotes A r B id i j) :
    Denotes A a B b i j ↔ ∀ x, Occurs A x i → b (r x) = a x := by
  have hat {path : List ℕ} {k : TypeKind} (hk : kindAt A i path = some k) :
      denote B b j path = some (k.shape, k.children.length, (k.symbols.map r).map b) := by
    obtain ⟨k', hk', heq⟩ := Option.map_eq_some_iff.mp (h path _ (congrArg _ hk))
    simp only [Prod.mk.injEq, List.map_id] at heq
    rw [denote, hk', Option.map_some, heq.1, heq.2.1, heq.2.2]
  constructor
  · rintro hd x ⟨path, k, hk, hx⟩
    have heq := (hat hk).symm.trans (hd path _ (congrArg _ hk))
    simp only [Option.some.injEq, Prod.mk.injEq, true_and, List.map_map, List.map_inj_left] at heq
    exact heq x hx
  · intro ha path v hv
    obtain ⟨k, hk, rfl⟩ := Option.map_eq_some_iff.mp hv
    have hm : k.symbols.map (b ∘ r) = k.symbols.map a :=
      List.map_congr_left fun x hx => ha x ⟨path, k, hk, hx⟩
    rw [hat hk, List.map_map, hm]

theorem denote_cons {a : ℕ → δ} {n : ℕ} (hk : A[i]? = some k) :
    denote A a i (n :: path) = k.children[n]?.bind fun c => denote A a c path := by
  simp only [denote, kindAt, hk, Option.bind_eq_bind, Option.bind_some, Option.map_bind]
  rfl

/-- Types denote the same if their kinds agree and the types that they refer to do. -/
theorem denotes_of_kinds {a b : ℕ → δ} {j : ℕ} {k' : TypeKind} (hk : A[i]? = some k)
    (hk' : B[j]? = some k') (hsh : k'.shape = k.shape)
    (hs : k'.symbols.map b = k.symbols.map a)
    (hch : List.Forall₂ (Denotes A a B b) k.children k'.children) : Denotes A a B b i j := by
  obtain ⟨hl, hg⟩ := List.forall₂_iff_get.mp hch
  rintro (_ | ⟨n, path⟩) v hv
  · rw [← hv, denote, denote, kindAt, kindAt, hk, hk', Option.map_some, Option.map_some, hsh,
      hs, hl]
  · rw [denote_cons hk] at hv
    obtain ⟨c, hc, hv⟩ := Option.bind_eq_some_iff.mp hv
    obtain ⟨hn, rfl⟩ := List.getElem?_eq_some_iff.mp hc
    rw [denote_cons hk', List.getElem?_eq_getElem (hl ▸ hn)]
    exact hg n hn (hl ▸ hn) path v hv

end Galfus
