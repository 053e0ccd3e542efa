import Galfus.Types.Table

/-! # Types of one module in another

A generic function is specialised at types of its caller. They are translated to types of its
own module, where a symbol stands for another one of the same name.
-/

namespace Galfus

structure Symbol where
  id : ℕ
  name : ℕ

structure ImportRecord where
  localName : String
  localSymbol : ℕ

structure ResolutionLayer where
  symbols : List Symbol
  imports : List ImportRecord

structure CheckedModule where
  resolution : Option ResolutionLayer
  types : Option (List TypeKind)

abbrev Interning := StateM (List TypeKind)

/-- Ids are 32-bit numbers in the source: a table has no more than `2 ^ 32` types. -/
def intern (kind : TypeKind) : Interning ℕ := fun types =>
  match types.idxOf? kind with
  | some existing => (existing, types)
  | none => (types.length, types ++ [kind])

section Translation

variable (stringTable : ℕ → Option String)

def translateSymbol (callerResolution targetResolution : Option ResolutionLayer) (symbol : ℕ) : ℕ :=
  match callerResolution.bind (·.symbols[symbol]?), targetResolution with
  | some callerSymbol, some target =>
    let name := (stringTable callerSymbol.name).getD ""
    match target.symbols.find? fun s => (stringTable s.name).getD "" == name with
    | some targetSymbol => targetSymbol.id
    | none => ((target.imports.find? (·.localName == name)).map (·.localSymbol)).getD symbol
  | _, _ => symbol

def translateKind (symbol : ℕ → ℕ) (translate : ℕ → Interning ℕ) : TypeKind → Interning TypeKind
  | .primitive primitive => pure (.primitive primitive)
  | .named s => pure (.named (symbol s))
  | .genericParameter s => pure (.genericParameter (symbol s))
  | .array element => return .array (← translate element)
  | .range element => return .range (← translate element)
  | .tuple elements => return .tuple (← elements.mapM translate)
  | .union members => return .union (← members.mapM translate)
  | .function parameters returnType isExternal => do
    let parameters ← parameters.mapM fun p => return p.retype (← translate p.ty)
    return .function parameters (← translate returnType) isExternal
  | .genericInstance base arguments => do
    let base ← translate base
    return .genericInstance base (← arguments.mapM translate)
  | .path root segments => pure (.path (symbol root) segments)
  | .error => pure .error

/-- A type refers to earlier ones only, so the second branch of the condition is never taken. -/
def translateTypeHelper (symbol : ℕ → ℕ) (callerTable : List TypeKind) (ty : ℕ) : Interning ℕ :=
  match callerTable[ty]? with
  | none => pure ty
  | some kind => do
    let translated ← translateKind symbol (fun t =>
      if t < ty then translateTypeHelper symbol callerTable t else pure t) kind
    intern translated
termination_by ty

def translateType (modules : List CheckedModule) (callerModIdx targetModIdx ty : ℕ) :
    Option (ℕ × List CheckedModule) :=
  if callerModIdx = targetModIdx then some (ty, modules)
  else do
    let caller ← modules[callerModIdx]?
    let target ← modules[targetModIdx]?
    let callerTable ← caller.types
    let targetTable ← target.types
    let (id, types) := translateTypeHelper
      (translateSymbol stringTable caller.resolution target.resolution) callerTable ty targetTable
    some (id, modules.set targetModIdx { target with types := some types })

/-- The symbol that stands for a symbol of the caller. -/
def chosenSymbol (c t : ℕ) (caller target : CheckedModule) (x : ℕ) : ℕ :=
  if c = t then x else translateSymbol stringTable caller.resolution target.resolution x

end Translation

/-- Whatever the table is, it grows, and the result has a property in the new table. -/
def Gives {α : Type} (x : Interning α) (Q : List TypeKind → α → Prop) : Prop :=
  ∀ s, s <+: (x s).2 ∧ Q (x s).2 (x s).1

section Gives

variable {α β γ : Type} {x : Interning α} {f : α → Interning β} {P : List TypeKind → α → Prop}
  {Q : List TypeKind → β → Prop}

theorem Gives.pure {a : α} (h : ∀ s, P s a) : Gives (pure a) P := fun s => ⟨List.prefix_rfl, h s⟩

theorem Gives.bind (hx : Gives x P) (hP : ∀ {s s' a}, s <+: s' → P s a → P s' a)
    (hf : ∀ a, Gives (f a) fun s b => P s a → Q s b) : Gives (x >>= f) Q := by
  intro s
  obtain ⟨hs, ha⟩ := hx s
  obtain ⟨hs', hb⟩ := hf (x s).1 (x s).2
  exact ⟨hs.trans hs', hb (hP hs' ha)⟩

theorem Gives.mapM {g : γ → Interning α} {R : List TypeKind → γ → α → Prop} {cs : List γ}
    (hg : ∀ c ∈ cs, Gives (g c) fun s => R s c)
    (hR : ∀ {s s' c a}, s <+: s' → R s c a → R s' c a) :
    Gives (cs.mapM g) fun s => List.Forall₂ (R s) cs := by
  induction cs with
  | nil => exact .pure fun s => .nil
  | cons c cs ih =>
    rw [List.forall_mem_cons] at hg
    rw [List.mapM_cons]
    refine hg.1.bind hR fun a => (ih hg.2).bind (fun hs h => h.imp fun _ _ => hR hs) fun as => ?_
    exact .pure fun s has ha => .cons ha has

theorem gives_intern (k : TypeKind) : Gives (intern k) fun s id => s[id]? = some k := by
  intro s
  unfold intern
  cases h : s.idxOf? k with
  | some id =>
    obtain ⟨hid, heq, -⟩ := List.idxOf?_eq_some_iff.mp h
    exact ⟨List.prefix_rfl, List.getElem?_eq_some_iff.mpr ⟨hid, heq⟩⟩
  | none => exact ⟨List.prefix_append s [k], by simp⟩

/-- A translated kind has the same shape, the chosen symbols and the translated types. -/
theorem gives_translateKind {sy : ℕ → ℕ} {t : ℕ → Interning ℕ} {k : TypeKind}
    {R : List TypeKind → ℕ → ℕ → Prop} (hR : ∀ {s s' c c'}, s <+: s' → R s c c' → R s' c c')
    (h : ∀ c ∈ k.children, Gives (t c) fun s => R s c) :
    Gives (translateKind sy t k) fun s k' => k'.shape = k.shape ∧
      k'.symbols = k.symbols.map sy ∧ List.Forall₂ (R s) k.children k'.children := by
  have hal {s s' : List TypeKind} {cs cs' : List ℕ} (hs : s <+: s')
      (h : List.Forall₂ (R s) cs cs') : List.Forall₂ (R s') cs cs' := h.imp fun _ _ => hR hs
  cases k with
  | primitive | error | named | path | genericParameter => exact .pure fun s => ⟨rfl, rfl, .nil⟩
  | array e | range e =>
    exact (h e (.head _)).bind hR fun e' => .pure fun s he => ⟨rfl, rfl, .cons he .nil⟩
  | tuple | union =>
    exact (Gives.mapM h hR).bind hal fun es => .pure fun s hes => ⟨rfl, rfl, hes⟩
  | function ps r ie =>
    simp only [TypeKind.children, List.forall_mem_append, List.forall_mem_map,
      List.forall_mem_singleton] at h
    have hps : Gives (ps.mapM fun p => return p.retype (← t p.ty)) fun s =>
        List.Forall₂ (fun p p' => p.retype 0 = p'.retype 0 ∧ R s p.ty p'.ty) ps := by
      refine .mapM (fun p hp => (h.1 p hp).bind hR fun ty => .pure fun s hty => ?_)
        fun hs h => ⟨h.1, hR hs h.2⟩
      cases p <;> exact ⟨rfl, hty⟩
    refine hps.bind (fun hs h => h.imp fun _ _ h => ⟨h.1, hR hs h.2⟩) fun ps' =>
      h.2.bind hR fun r' => .pure fun s hr hps => ?_
    have hmd : ps'.map (·.retype 0) = ps.map (·.retype 0) := by
      rw [eq_comm, ← List.forall₂_eq_eq_eq, List.forall₂_map_left_iff, List.forall₂_map_right_iff]
      exact hps.imp fun _ _ h => h.1
    have hts : List.Forall₂ (R s) (ps.map (·.ty)) (ps'.map (·.ty)) := by
      rw [List.forall₂_map_left_iff, List.forall₂_map_right_iff]
      exact hps.imp fun _ _ h => h.2
    exact ⟨congrArg (TypeKind.function · 0 ie) hmd, rfl, List.rel_append hts (.cons hr .nil)⟩
  | genericInstance b as =>
    rw [TypeKind.children, List.forall_mem_cons] at h
    exact h.1.bind hR fun b' => (Gives.mapM h.2 hR).bind hal fun as' =>
      .pure fun s has hb => ⟨rfl, rfl, .cons hb has⟩

end Gives

theorem gives_translateTypeHelper (sy : ℕ → ℕ) {A : List TypeKind} (hA : TypesOrdered A)
    {ty : ℕ} (hty : ty < A.length) :
    Gives (translateTypeHelper sy A ty) fun s => Denotes A sy s id ty := by
  induction ty using Nat.strongRecOn with
  | _ ty ih =>
    have hk := List.getElem?_eq_getElem hty
    rw [translateTypeHelper, hk]
    refine (gives_translateKind (R := fun s => Denotes A sy s id) .mono
      fun c hc => ?_).bind (fun hs h => ⟨h.1, h.2.1, h.2.2.imp fun _ _ => .mono hs⟩) fun k' s => ?_
    · have hlt := hA ty _ hk c hc
      simp only [if_pos hlt]
      exact ih c hlt (Nat.lt_trans hlt hty)
    · obtain ⟨hs, hid⟩ := gives_intern k' s
      exact ⟨hs, fun h => denotes_of_kinds hk hid h.1 ((List.map_id _).trans h.2.1) h.2.2⟩

/-- A type is translated to one that denotes the same just if every symbol in it has the declaration
of the symbol that is chosen for it. -/
theorem translateType_denotes_iff {δ : Type} (declares : ℕ → ℕ → δ)
    (stringTable : ℕ → Option String) (modules : List CheckedModule) (c t ty : ℕ)
    {caller target : CheckedModule} {A B : List TypeKind} (hc : modules[c]? = some caller)
    (ht : modules[t]? = some target) (hA : caller.types = some A) (hB : target.types = some B)
    (hord : TypesOrdered A) (hty : ty < A.length) :
    ∃ ty' types, translateType stringTable modules c t ty =
        some (ty', modules.set t { target with types := some types }) ∧ B <+: types ∧
      (Denotes A (declares c) types (declares t) ty ty' ↔ ∀ x, Occurs A x ty →
        declares t (chosenSymbol stringTable c t caller target x) = declares c x) ∧
      ∀ types₂ ty₂, types <+: types₂ → Denotes A (declares c) types (declares t) ty ty' →
        Denotes A (declares c) types₂ (declares t) ty₂ ty' → ∀ path v v₂,
          denote A (declares c) ty path = some v → denote A (declares c) ty₂ path = some v₂ →
            v = v₂ := by
  have hrn : ∃ ty' types, translateType stringTable modules c t ty =
      some (ty', modules.set t { target with types := some types }) ∧ B <+: types ∧
        Denotes A (chosenSymbol stringTable c t caller target) types id ty ty' := by
    unfold translateType chosenSymbol
    by_cases hct : c = t
    · subst hct
      cases hc.symm.trans ht
      cases hA.symm.trans hB
      obtain ⟨hlt, rfl⟩ := List.getElem?_eq_some_iff.mp hc
      simp only [if_true]
      exact ⟨ty, A, by rw [← hA, List.set_getElem_self], List.prefix_rfl, fun _ _ h => h⟩
    · obtain ⟨hs, hty'⟩ := gives_translateTypeHelper
        (translateSymbol stringTable caller.resolution target.resolution) hord hty B
      simp only [hct, if_false, hc, ht, Option.bind_eq_bind, Option.bind_some, hA, hB]
      exact ⟨_, _, rfl, hs, hty'⟩
  obtain ⟨ty', types, hrn, hs, hty'⟩ := hrn
  refine ⟨ty', types, hrn, hs, denotes_iff_of_renamed hty', ?_⟩
  intro types₂ ty₂ hs₂ h h₂ path v v₂ hv hv₂
  exact Option.some.inj ((h.mono hs₂ path v hv).symm.trans (h₂ path v₂ hv₂))

def names : ℕ → Option String := fun _ => some "Point"

/-- A module with a struct and with arrays of it. -/
def drawing : CheckedModule := ⟨some ⟨[⟨0, 0⟩], []⟩, some [.named 0, .array 0]⟩

def importing : CheckedModule := ⟨some ⟨[], [⟨"Point", 3⟩]⟩, some []⟩

/-- Symbol 3 of the second module is the struct of the first one. -/
def declared (m x : ℕ) : ℕ := if m = 0 ∧ x = 0 then 3 else x

theorem translateType_denotes_iff_importing :
    ∃ ty' types, translateType names [drawing, importing] 0 1 1 =
        some (ty', [drawing, ⟨importing.resolution, some types⟩]) ∧
      Denotes [.named 0, .array 0] (declared 0) types (declared 1) 1 ty' := by
  have ho : TypesOrdered [.named 0, .array 0] := by
    rintro (_ | _ | i) k ⟨⟩ <;> simp [TypeKind.children]
  obtain ⟨ty', types, hr, -, hi, -⟩ := translateType_denotes_iff declared names
    [drawing, importing] 0 1 1 rfl rfl rfl rfl ho (by decide)
  refine ⟨ty', types, hr, hi.mpr fun x _ => ?_⟩
  cases x <;> rfl

/-- A module with another struct of the same name. -/
def homonym : CheckedModule := ⟨some ⟨[⟨0, 0⟩], []⟩, some []⟩

theorem homonym_chosen : ∃ ty' types, translateType names [drawing, homonym] 0 1 0 =
      some (ty', [drawing, ⟨homonym.resolution, some types⟩]) ∧
    ¬ Denotes [.named 0, .array 0] (Prod.mk 0) types (Prod.mk 1) 0 ty' := by
  refine ⟨0, [.named 0], ?_, fun h => absurd (h [] _ rfl) (by decide)⟩
  unfold translateType translateTypeHelper
  rfl

end Galfus
