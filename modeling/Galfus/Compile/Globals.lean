import Galfus.Package.Graph

/-! # Slots of module-level variables

A name that is bound to a module-level variable is lowered to its text. Emission looks for the
first symbol of that text, and linking follows the import when that symbol is one.
-/

namespace Galfus.Compile

open Package (ModuleId ModulePath)

inductive SymbolKind
  | function | typeAlias | struct | enum | choice | constraint
  | var | const
  | parameter | restParameter | genericParameter | forBinding | patternBinding | typePatternBinding
  | structField | enumVariant | choiceVariant | constraintField | constraintFunction
  | importNamespace | importBinding
  | builtinType
  deriving DecidableEq

structure Symbol where
  kind : SymbolKind
  name : String

def Symbol.isVariable (symbol : Symbol) : Bool :=
  symbol.kind = .var || symbol.kind = .const

def nameAt (symbols : List Symbol) (symbol : ℕ) : Option String :=
  symbols[symbol]?.map (·.name)

structure ImportRecord where
  source : String
  /-- `none` when the module as a whole is imported. -/
  importedName : Option String
  localSymbol : ℕ

/-- A name in an expression, or the target of an assignment or of an initialiser, with the symbol
it is bound to. -/
structure Use where
  symbol : ℕ
  isStore : Bool

structure CompiledModule where
  id : ModuleId
  path : ModulePath
  symbols : List Symbol
  /-- The items and imports of the file. -/
  scope : List ℕ
  imports : List ImportRecord
  exports : List ℕ
  uses : List Use
  /-- The resolver reports a second symbol of one name in a scope. -/
  names : ∀ a ∈ scope, ∀ b ∈ scope, nameAt symbols a = nameAt symbols b → a = b
  imports_mem : ∀ r ∈ imports, r.localSymbol ∈ scope ∧ symbols[r.localSymbol]?.map (·.kind) =
    some (if r.importedName.isSome then .importBinding else .importNamespace)
  exports_mem : ∀ e ∈ exports, e ∈ scope

namespace CompiledModule

variable (m : CompiledModule)

def importOf (symbol : ℕ) : Option ImportRecord :=
  m.imports.find? (·.localSymbol == symbol)

def exportNamed (name : String) : Option ℕ :=
  m.exports.find? (nameAt m.symbols · == some name)

def exportSlot (symbol : ℕ) : Option ExportSlot :=
  match m.symbols[symbol]? with
  | some s => if s.isVariable then some ⟨s.name, .global (symbol % 2 ^ 16)⟩ else none
  | none => none

/-- The name of the global that a use loads or stores. -/
def lower (u : Use) : Option String :=
  match m.symbols[u.symbol]? with
  | some s =>
    if s.isVariable || !u.isStore && s.kind = .importBinding then some s.name else none
  | none => none

def firstNamed (name : String) : ℕ :=
  (m.symbols.findIdx? (·.name == name)).getD 0

def Declares (v : ℕ) : Prop :=
  v ∈ m.scope ∧ ∃ s, m.symbols[v]? = some s ∧ s.isVariable

variable {m} {k v : ℕ} {s : Symbol}

/-- Emission finds a symbol of the name, not after the one that is meant. -/
theorem firstNamed_spec (h : m.symbols[k]? = some s) : m.firstNamed s.name ≤ k ∧
      nameAt m.symbols (m.firstNamed s.name) = nameAt m.symbols k := by
  obtain ⟨hk, rfl⟩ := List.getElem?_eq_some_iff.mp h
  unfold firstNamed
  cases hf : m.symbols.findIdx? (·.name == m.symbols[k].name) with
  | none =>
    have hne := List.findIdx?_eq_none_iff.mp hf m.symbols[k] (List.getElem_mem hk)
    simp at hne
  | some f =>
    obtain ⟨hlt, hp, hmn⟩ := List.findIdx?_eq_some_iff_getElem.mp hf
    constructor
    · by_contra hkf
      have hne := hmn k (by simpa using hkf)
      simp at hne
    · simpa [nameAt, hlt, hk] using hp

theorem Declares.importOf_firstNamed (h : m.Declares v) (hs : m.symbols[v]? = some s) :
    m.importOf (m.firstNamed s.name) = none := by
  obtain ⟨hv, s', hs', hvr⟩ := h
  refine List.find?_eq_none.mpr fun r hr heq => ?_
  obtain ⟨hsc, hk⟩ := m.imports_mem r hr
  rw [beq_iff_eq] at heq
  rw [m.names _ hsc _ hv (heq ▸ (firstNamed_spec hs).2)] at hk
  unfold Symbol.isVariable at hvr
  split at hk <;> simp_all

/-- An exported variable has the slot that its export says, and another one the slot where its
name is found first. -/
def slotIdx (m : CompiledModule) (v : ℕ) : ℕ :=
  if v ∈ m.exports then v else m.firstNamed ((nameAt m.symbols v).getD "")

theorem slotIdx_inj {w : ℕ} (hv : m.Declares v) (hw : m.Declares w)
    (h : m.slotIdx v = m.slotIdx w) : v = w := by
  have hsp {v : ℕ} (hv : m.Declares v) : nameAt m.symbols (m.slotIdx v) = nameAt m.symbols v := by
    obtain ⟨-, s, hs, -⟩ := hv
    unfold slotIdx
    split
    · rfl
    · simpa [nameAt, hs] using (firstNamed_spec hs).2
  exact m.names v hv.1 w hw.1 ((hsp hv).symm.trans ((congrArg _ h).trans (hsp hw)))

end CompiledModule

def resolveRelativeImport (known : List String) (base : ModulePath) (source : String) :
    Option ModulePath :=
  if source ∈ known then ModulePath.new (source ++ ".gfs")
  else
    (ModulePath.normalize (base.toList.splitOnP (· == '/')).dropLast
      (source.toList.splitOnP (· == '/'))).bind fun segments =>
      let path := String.ofList (List.intercalate ['/'] segments)
      ModulePath.new (if path.endsWith ".gfs" || path.endsWith ".gfp" then path else path ++ ".gfs")

structure Program where
  modules : List CompiledModule
  builtinModules : List String
  providerModules : List String
  ids : (modules.map (·.id)).Nodup

namespace Program

variable (p : Program)

def position (path : ModulePath) : Option ℕ := p.modules.findIdx? (·.path == path)

/-- The module that the checker takes an import from. -/
def importTarget (m : CompiledModule) (source : String) : Option ℕ :=
  (resolveRelativeImport (p.builtinModules ++ p.providerModules) m.path source).bind p.position

/-- The module that linking takes an import from. -/
def importTargetIndex (m : CompiledModule) (source : String) : Option ℕ :=
  ((ModulePath.new source <|> ModulePath.new (source ++ ".gfs")).bind p.position) <|>
    (resolveRelativeImport p.builtinModules m.path source).bind p.position

inductive GlobalError
  | moduleIndex (modIdx : ℕ)
  | position (localPos : ℕ) (path : ModulePath)
  | moduleImport (source : String) (path : ModulePath)
  | unresolvedImport (source : String) (path : ModulePath) (name : String)
  | missingGlobal (name : String) (path : ModulePath)

def canonicalGlobalRef (modIdx localPos : ℕ) : Except GlobalError (ModuleId × ℕ) :=
  match p.modules[modIdx]? with
  | none => .error (.moduleIndex modIdx)
  | some m =>
    if localPos < m.symbols.length then
      match m.importOf localPos with
      | none => .ok (m.id, localPos)
      | some record =>
        match record.importedName with
        | none => .error (.moduleImport record.source m.path)
        | some name =>
          match (p.importTargetIndex m record.source).bind (p.modules[·]?) with
          | none => .error (.unresolvedImport record.source m.path name)
          | some target =>
            match target.exportNamed name with
            | none => .error (.missingGlobal name target.path)
            | some symbol => .ok (target.id, symbol % 2 ^ 16)
    else .error (.position localPos m.path)

/-- What a use loads or stores in the finished code, if it does either. -/
def access (modIdx : ℕ) (u : Use) : Option (Except GlobalError (ModuleId × ℕ)) :=
  (p.modules[modIdx]?).bind fun m =>
    (m.lower u).map fun name => p.canonicalGlobalRef modIdx (m.firstNamed name % 2 ^ 16)

/-- The symbol of a module is bound to the variable `v` of the module `k`. -/
inductive Binds : ℕ → ℕ → ℕ → ℕ → Prop
  | own {k v : ℕ} {m : CompiledModule} : p.modules[k]? = some m → m.Declares v → Binds k v k v
  | imported {i s t e k v : ℕ} {m target : CompiledModule} {record : ImportRecord}
      {name : String} : p.modules[i]? = some m → m.importOf s = some record →
      record.importedName = some name → p.importTarget m record.source = some t →
      p.modules[t]? = some target → target.exportNamed name = some e → Binds t e k v →
      Binds i s k v

/-- Each variable has a slot of its own, which every use of it accesses and its export names. -/
def OneSlotEach : Prop :=
  ∃ slot : ℕ → ℕ → ModuleId × ℕ,
    (∀ i m, p.modules[i]? = some m → ∀ u ∈ m.uses, ∀ k v, p.Binds i u.symbol k v →
      p.access i u = some (.ok (slot k v))) ∧
    (∀ k m, p.modules[k]? = some m → ∀ v ∈ m.exports, m.Declares v →
      (slot k v).1 = m.id ∧ ∃ name, m.exportSlot v = some ⟨name, .global (slot k v).2⟩) ∧
    ∀ k m k' m', p.modules[k]? = some m → p.modules[k']? = some m' → ∀ v v', m.Declares v →
      m'.Declares v' → slot k v = slot k' v' → k = k' ∧ v = v'

/-- The symbol `s` is the variable itself, or is imported from the module that declares it. -/
def Direct (i : ℕ) (m : CompiledModule) (s k : ℕ) (target : CompiledModule) (v : ℕ) : Prop :=
  match m.importOf s with
  | none => i = k ∧ s = v
  | some record => p.importTargetIndex m record.source = some k ∧
      record.importedName.bind target.exportNamed = some v

/-- The name that an exported variable is used under leads to it directly, and if it is imported,
it is not stored. -/
def Clear : Prop :=
  ∀ i m, p.modules[i]? = some m → ∀ u ∈ m.uses, ∀ k v, p.Binds i u.symbol k v →
    ∀ target, p.modules[k]? = some target → v ∈ target.exports →
      ∃ name, m.lower u = some name ∧ p.Direct i m (m.firstNamed name) k target v

/-- The positions of the variables, the exports and the used symbols are 16-bit numbers. -/
def Fits : Prop :=
  ∀ m ∈ p.modules, ∀ s, m.Declares s ∨ s ∈ m.exports ∨ s ∈ m.uses.map (·.symbol) → s < 2 ^ 16

variable {p} {i k v : ℕ} {m t : CompiledModule} {u : Use}

theorem module_unique (hm : p.modules[i]? = some m) (ht : p.modules[k]? = some t)
    (hid : m.id = t.id) : i = k ∧ m = t := by
  obtain ⟨hlt, -⟩ := List.getElem?_eq_some_iff.mp hm
  have hn : (p.modules.map (·.id))[i]? = (p.modules.map (·.id))[k]? := by simp [hm, ht, hid]
  obtain rfl := (List.getElem?_inj (by simpa using hlt) p.ids).mp hn
  exact ⟨rfl, Option.some.inj (hm.symm.trans ht)⟩

/-- A variable that another module has bound is exported by the module that declares it. -/
theorem Binds.exported {s : ℕ} (h : p.Binds i s k v) :
    ∃ m, p.modules[k]? = some m ∧ m.Declares v ∧ (i = k ∧ s = v ∨ v ∈ m.exports) := by
  induction h with
  | own hm hd => exact ⟨_, hm, hd, .inl ⟨rfl, rfl⟩⟩
  | imported _ _ _ _ ht he _ ih =>
    obtain ⟨m, hm, hd, ⟨rfl, rfl⟩ | hv⟩ := ih
    · obtain rfl := Option.some.inj (ht.symm.trans hm)
      exact ⟨_, hm, hd, .inr (List.mem_of_find?_eq_some he)⟩
    · exact ⟨m, hm, hd, .inr hv⟩

section Fits

variable (hfits : p.Fits) (hm : p.modules[i]? = some m)
include hfits hm

theorem canonicalGlobalRef_eq_ok {s : ℕ} (hs : s < m.symbols.length) (ht : p.modules[k]? = some t) :
    p.canonicalGlobalRef i s = .ok (t.id, v) ↔ p.Direct i m s k t v := by
  simp only [canonicalGlobalRef, Direct, hm, hs, if_true]
  cases m.importOf s with
  | none =>
    simp only [Except.ok.injEq, Prod.mk.injEq]
    refine and_congr_left fun _ => ⟨fun hid => (module_unique hm ht hid).1, ?_⟩
    rintro rfl
    exact congrArg _ (Option.some.inj (hm.symm.trans ht))
  | some r =>
    dsimp only
    cases r.importedName with
    | none => simp
    | some n =>
      dsimp only
      have hlt {k' : ℕ} {t' : CompiledModule} {e : ℕ} (hk : p.modules[k']? = some t')
          (he : t'.exportNamed n = some e) : e % 2 ^ 16 = e :=
        Nat.mod_eq_of_lt (hfits t' (List.mem_of_getElem? hk) e
          (.inr (.inl (List.mem_of_find?_eq_some he))))
      constructor
      · intro h
        split at h
        · cases h
        next t' hfn =>
        split at h
        · cases h
        next e he =>
        obtain ⟨k', hk, hk'⟩ := Option.bind_eq_some_iff.mp hfn
        obtain ⟨hid, rfl⟩ := Prod.mk.inj (Except.ok.inj h)
        obtain ⟨rfl, rfl⟩ := module_unique hk' ht hid
        exact ⟨hk, by rw [hlt ht he]; exact he⟩
      · rintro ⟨hk, he⟩
        rw [Option.bind_some] at he
        simp only [hk, Option.bind_some, ht, he, hlt ht he]

theorem access_eq_ok (hu : u ∈ m.uses) (ht : p.modules[k]? = some t) :
    p.access i u = some (.ok (t.id, v)) ↔
      ∃ n, m.lower u = some n ∧ p.Direct i m (m.firstNamed n) k t v := by
  rw [access, hm, Option.bind_some]
  cases hl : m.lower u with
  | none => simp
  | some n =>
    have hs : ∃ s, m.symbols[u.symbol]? = some s ∧ s.name = n := by
      unfold CompiledModule.lower at hl
      grind
    obtain ⟨s, hs, rfl⟩ := hs
    have hle := (CompiledModule.firstNamed_spec hs).1
    obtain ⟨hlt, -⟩ := List.getElem?_eq_some_iff.mp hs
    have hf := hfits m (List.mem_of_getElem? hm) _ (.inr (.inr (List.mem_map_of_mem hu)))
    rw [Option.map_some, Nat.mod_eq_of_lt (by omega), Option.some_inj,
      canonicalGlobalRef_eq_ok hfits hm (by omega) ht]
    simp

theorem access_own {s : Symbol} (hu : u ∈ m.uses) (hd : m.Declares u.symbol)
    (hs : m.symbols[u.symbol]? = some s) :
    p.access i u = some (.ok (m.id, m.firstNamed s.name)) := by
  obtain ⟨s', hs', hv⟩ := hd.2
  obtain rfl := Option.some.inj (hs'.symm.trans hs)
  have hl : m.lower u = some s'.name := by simp [CompiledModule.lower, hs, hv]
  refine (access_eq_ok hfits hm hu hm).mpr ⟨s'.name, hl, ?_⟩
  simp [Direct, hd.importOf_firstNamed hs]

theorem exportSlot_declared (hd : m.Declares v) : ∃ n, m.exportSlot v = some ⟨n, .global v⟩ := by
  have hlt : v % 65536 = v := Nat.mod_eq_of_lt (hfits m (List.mem_of_getElem? hm) v (.inl hd))
  obtain ⟨-, s, hs, hvr⟩ := hd
  exact ⟨s.name, by simp [CompiledModule.exportSlot, hs, hvr, hlt]⟩

end Fits

theorem clear_of_oneSlotEach (hfits : p.Fits) (h : p.OneSlotEach) : p.Clear := by
  obtain ⟨sl, ha, hep, -⟩ := h
  intro i m hm u hu k v hb t ht hv
  obtain ⟨t', ht', hd, -⟩ := hb.exported
  obtain rfl := Option.some.inj (ht'.symm.trans ht)
  obtain ⟨hid, n, he⟩ := hep k t' ht v hv hd
  obtain ⟨n', he'⟩ := exportSlot_declared hfits ht hd
  have hs : sl k v = (t'.id, v) := by
    rw [he, Option.some.injEq, ExportSlot.mk.injEq, ExportKind.global.injEq] at he'
    exact Prod.ext hid he'.2
  refine (access_eq_ok hfits hm hu ht).mp ?_
  rw [ha i m hm u hu k v hb, hs]

theorem oneSlotEach_of_clear (hfits : p.Fits) (h : p.Clear) : p.OneSlotEach := by
  refine ⟨fun k v => (p.modules[k]?.elim 0 (·.id), p.modules[k]?.elim 0 (·.slotIdx v)), ?_, ?_, ?_⟩
  · intro i m hm u hu k v hb
    obtain ⟨t, ht, hd, ho⟩ := hb.exported
    simp only [ht, Option.elim_some, CompiledModule.slotIdx]
    split
    · next hv => exact (access_eq_ok hfits hm hu ht).mpr (h i m hm u hu k v hb t ht hv)
    · next hv =>
      obtain ⟨rfl, rfl⟩ := ho.resolve_right hv
      obtain rfl := Option.some.inj (hm.symm.trans ht)
      obtain ⟨s, hs, -⟩ := hd.2
      simp [access_own hfits hm hu hd hs, nameAt, hs]
  · intro k m hm v hv hd
    simpa [hm, CompiledModule.slotIdx, hv] using exportSlot_declared hfits hm hd
  · intro k m k' m' hm hm' v v' hd hd' heq
    simp only [hm, hm', Option.elim_some, Prod.mk.injEq] at heq
    obtain ⟨rfl, rfl⟩ := module_unique hm hm' heq.1
    exact ⟨rfl, CompiledModule.slotIdx_inj hd hd' heq.2⟩

def builtinConstraint (name : String) (genericParameters functions : List String) : List Symbol :=
  ⟨.constraint, name⟩ :: genericParameters.map (⟨.genericParameter, ·⟩) ++
    functions.map (⟨.constraintFunction, ·⟩)

/-- The symbols of the builtin scope, which come first in every module. -/
def builtins : List Symbol :=
  ["null", "bool", "i8", "i16", "i32", "i64", "u8", "u16", "u32", "u64", "f32", "f64", "int",
      "uint", "float"].map (⟨.builtinType, ·⟩) ++
    builtinConstraint "Iterator" ["T", "Item"] ["next"] ++
    builtinConstraint "Iterable" ["T", "Item", "Iter"] ["iter"] ++
    builtinConstraint "Comparable" ["Pattern", "Value"] ["compare"]

/-- The file `export var name = 1;`. -/
def exporting (name : String) : CompiledModule where
  id := 0
  path := "main.gfs"
  symbols := builtins ++ [⟨.var, name⟩]
  scope := [28]
  imports := []
  exports := [28]
  uses := [⟨28, true⟩]
  names := by simp
  imports_mem := by simp
  exports_mem := by simp

def alone (m : CompiledModule) : Program := ⟨[m], [], [], by simp⟩

/-- A file that reads the variable `count` of the file `main.gfs`. -/
def counting : CompiledModule where
  id := 1
  path := "sub/use.gfs"
  symbols := builtins ++ [⟨.importBinding, "count"⟩]
  scope := [28]
  imports := [⟨"../main", some "count", 28⟩]
  exports := []
  uses := [⟨28, false⟩]
  names := by simp
  imports_mem := by simp [builtins, builtinConstraint]
  exports_mem := by simp

def counted : Program := ⟨[exporting "count", counting], [], [], by decide⟩

end Program

end Galfus.Compile
