import RefactorCpp.NameStyle.CamelJoin
import RefactorCpp.Support.Insertions

/-!
# Registered name styles

`NameStyleRegistry` of `namestyle.cpp` with its two default styles, and the names that the
accessor styles of `llvm` make.

* `create_registerNameStyle` — the style registered last under an id is the one that is made.
* `create_new` — the two styles of the constructor, and the error for every other id.
* `splitIdentifer_prefixed` — a prefix in small letters grows together with the first word.
* `splitIdentifer_accessor_ne` — **the prefix of an accessor is never a word of its own**.
* `registeredNameStyles_run` — **the registry after any sequence of registrations**.
-/

set_option autoImplicit false

namespace RefactorCpp

open Insertions Runs

/-- `enum class IncludeGuardStyleType`. -/
inductive IncludeGuardStyleType where
  | no
  | filename
  | path
  | uniqueId
  | pragmaOnce
  deriving DecidableEq, Repr

/-- `struct IncludeGuardStyle`. -/
structure IncludeGuardStyle where
  nameStyle : TypeNameStyle
  type : IncludeGuardStyleType
  deriving DecidableEq, Repr

/-- `class NameStyle`: a style for each kind of name. -/
structure NameStyle where
  namespace_ : TypeNameStyle
  records : TypeNameStyle
  methods : TypeNameStyle
  staticMethod : TypeNameStyle
  function : TypeNameStyle
  getter : TypeNameStyle
  setter : TypeNameStyle
  boolGetter : TypeNameStyle
  variable_ : TypeNameStyle
  field : TypeNameStyle
  constant : TypeNameStyle
  parameter : TypeNameStyle
  templateParameter : TypeNameStyle
  macroStyle : TypeNameStyle
  sourceFile : TypeNameStyle
  headerFile : TypeNameStyle
  testFile : TypeNameStyle
  includeGuard : IncludeGuardStyle
  deriving DecidableEq, Repr

/-- A function that makes a style, and may throw. -/
abbrev NameStyleFactory := Str → Except StdException NameStyle

/-- The style `boost`. -/
def boost : Str → NameStyle := fun _ =>
  let commonStyle : TypeNameStyle := ⟨.lowerCase, bytes "_", [], []⟩
  { records := commonStyle
    methods := commonStyle
    staticMethod := commonStyle
    function := commonStyle
    getter := commonStyle
    boolGetter := commonStyle
    setter := commonStyle
    namespace_ := commonStyle
    variable_ := commonStyle
    field := commonStyle
    constant := commonStyle
    parameter := commonStyle
    templateParameter := commonStyle
    macroStyle := { commonStyle with capitalization := .upperCase }
    sourceFile := { commonStyle with nameSuffix := bytes ".cpp" }
    headerFile := { commonStyle with nameSuffix := bytes ".hpp" }
    testFile := { commonStyle with nameSuffix := bytes "_test.cpp" }
    includeGuard := ⟨⟨.upperCase, [], [], []⟩, .path⟩ }

/-- The style `llvm`. -/
def llvm : Str → NameStyle := fun _ =>
  let commonStyle : TypeNameStyle := ⟨.upperCamelCase, [], [], []⟩
  let funcStyle : TypeNameStyle := ⟨.lowerCamelCase, [], [], []⟩
  { records := commonStyle
    methods := funcStyle
    staticMethod := funcStyle
    function := funcStyle
    getter := { funcStyle with namePrefix := bytes "get" }
    boolGetter := { funcStyle with namePrefix := bytes "is" }
    setter := { funcStyle with namePrefix := bytes "set" }
    namespace_ := ⟨.lowerCase, bytes "_", [], []⟩
    variable_ := commonStyle
    field := commonStyle
    constant := commonStyle
    parameter := commonStyle
    templateParameter := commonStyle
    macroStyle := { commonStyle with capitalization := .upperCase }
    sourceFile := { commonStyle with nameSuffix := bytes ".cpp" }
    headerFile := { commonStyle with nameSuffix := bytes ".h" }
    testFile := { commonStyle with nameSuffix := bytes "_test.cpp" }
    includeGuard := ⟨⟨.upperCase, [], [], []⟩, .path⟩ }

/-- The `StringMap` is a finite map: a list of entries with different keys. -/
structure NameStyleRegistry where
  nameStyles : AList fun _ : Str => NameStyleFactory

/-- `NameStyleRegistry::registerNameStyle`. -/
def NameStyleRegistry.registerNameStyle (registry : NameStyleRegistry) (id : Str)
    (factory : NameStyleFactory) : NameStyleRegistry :=
  ⟨registry.nameStyles.insert id factory⟩

/-- The registry as its constructor leaves it.  The two lambdas never throw. -/
def NameStyleRegistry.new : NameStyleRegistry :=
  ((NameStyleRegistry.mk ∅).registerNameStyle (bytes "boost") fun id => .ok (boost id)
    ).registerNameStyle (bytes "llvm") fun id => .ok (llvm id)

/-- `NameStyleRegistry::create`. -/
def NameStyleRegistry.create (registry : NameStyleRegistry) (id : Str) :
    Except StdException NameStyle :=
  match registry.nameStyles.lookup id with
  | none => .error (.invalidArgument
      (bytes "name style with id `" ++ id ++ bytes "` is not existing"))
  | some factory => factory id

/-- **The last registration counts**, and other ids are not touched. -/
theorem create_registerNameStyle (registry : NameStyleRegistry) (id : Str)
    (factory : NameStyleFactory) (id' : Str) :
    (registry.registerNameStyle id factory).create id' =
      if id' = id then factory id' else registry.create id' := by
  unfold NameStyleRegistry.create NameStyleRegistry.registerNameStyle
  rw [Insertions.lookup_insert_eq]
  by_cases h : id' = id
  · rw [if_pos h, if_pos h]
  · rw [if_neg h, if_neg h]

/-- **The styles of the constructor**, and the error for every other id. -/
theorem create_new (id : Str) :
    NameStyleRegistry.new.create id =
      if id = bytes "llvm" then .ok (llvm id)
      else if id = bytes "boost" then .ok (boost id)
      else .error (.invalidArgument
        (bytes "name style with id `" ++ id ++ bytes "` is not existing")) := by
  unfold NameStyleRegistry.new
  rw [create_registerNameStyle, create_registerNameStyle]
  rfl

theorem create_llvm : NameStyleRegistry.new.create (bytes "llvm") = .ok (llvm (bytes "llvm")) := by
  rw [create_new, if_pos rfl]

/-! ## Names with a prefix -/

/-- **A prefix in small letters grows together with the first word.** -/
theorem splitIdentifer_prefixed {style : TypeNameStyle} {w : Str} {ws : List Str}
    (hcap : style.capitalization = .lowerCamelCase) (hd : style.wordDelimiter = [])
    (hsuf : style.nameSuffix = []) (hpre : startsIn isLower style.namePrefix = true)
    (hlow : ∀ x ∈ style.namePrefix, isLowerAlnum x = true) (hw : ∀ x ∈ w, isAlnum x = true)
    (hws : ∀ v ∈ ws, HumpWord v) (ok : Option Bool) :
    splitIdentifer (joinIdentifier (w :: ws) style) ok =
      ((style.namePrefix ++ lower w) :: ws.map toCamelCase, ok.map fun _ => true) := by
  have hjoin : joinIdentifier (w :: ws) style =
      style.namePrefix ++ lower w ++ (ws.map toCamelCase).flatten := by
    unfold joinIdentifier
    rw [hd, hsuf, hcap, List.append_nil, intercalate_nil_left, convertParts,
      convertParts_camelCase (.inr rfl), List.flatten_cons, List.append_assoc]
    rfl
  have hwords : words (joinIdentifier (w :: ws) style) =
      (style.namePrefix ++ lower w) :: ws.map toCamelCase := by
    rw [hjoin]
    obtain ⟨c, r, hcr, -⟩ := exists_cons_of_startsIn hpre
    rw [hcr] at hpre hlow ⊢
    apply words_lower_camelCase hpre _ hws
    intro x hx
    rcases List.mem_append.1 hx with hx | hx
    · exact hlow x (List.mem_cons_of_mem c hx)
    · exact isLowerAlnum_of_mem_lower hw x hx
  exact splitIdentifer_of_words hwords (List.cons_ne_nil _ _) ok

/-- The accessor styles, each with the prefix it stands for. -/
def NameStyle.accessors (style : NameStyle) : List (Str × TypeNameStyle) :=
  [(bytes "get", style.getter), (bytes "set", style.setter), (bytes "is", style.boolGetter)]

/-- What the accessor styles of `llvm` have in common. -/
theorem accessors_llvm {p : Str} {style : TypeNameStyle} {id : Str}
    (h : (p, style) ∈ (llvm id).accessors) :
    style = ⟨.lowerCamelCase, [], [], p⟩ ∧ startsIn isLower p = true ∧
      ∀ x ∈ p, isLowerAlnum x = true := by
  have hcases : (p, style) = (bytes "get", ⟨.lowerCamelCase, [], [], bytes "get"⟩) ∨
      (p, style) = (bytes "set", ⟨.lowerCamelCase, [], [], bytes "set"⟩) ∨
      (p, style) = (bytes "is", ⟨.lowerCamelCase, [], [], bytes "is"⟩) := by
    simpa [NameStyle.accessors, llvm] using h
  rcases hcases with h | h | h
  · cases h
    exact ⟨rfl, by decide, by decide⟩
  · cases h
    exact ⟨rfl, by decide, by decide⟩
  · cases h
    exact ⟨rfl, by decide, by decide⟩

/-- The name splits into the prefix and the given words, up to letter case. -/
def KeepsPrefix (p : Str) (style : TypeNameStyle) (ws : List Str) : Prop :=
  ∃ vs : List Str, (splitIdentifer (joinIdentifier ws style) none).1 = p :: vs ∧
    vs.map lower = ws.map lower

/-- **The prefix of an accessor is never a word of its own.** -/
theorem splitIdentifer_accessor_ne (nameStyle : NameStyle)
    (hcreate : NameStyleRegistry.new.create (bytes "llvm") = .ok nameStyle) (p : Str)
    (style : TypeNameStyle) (hstyle : (p, style) ∈ nameStyle.accessors) (ws : List Str)
    (hne : ws ≠ []) (hws : ∀ w ∈ ws, HumpWord w) : ¬ KeepsPrefix p style ws := by
  rw [create_llvm] at hcreate
  cases hcreate
  obtain ⟨rfl, hpre, hlow⟩ := accessors_llvm hstyle
  obtain ⟨w, ws, rfl⟩ := List.exists_cons_of_ne_nil hne
  have hw := hws w List.mem_cons_self
  have hws' : ∀ v ∈ ws, HumpWord v := fun v hv => hws v (List.mem_cons_of_mem _ hv)
  rintro ⟨vs, hsplit, -⟩
  rw [splitIdentifer_prefixed rfl rfl rfl hpre hlow hw.2.2 hws'] at hsplit
  -- the first word would have to be empty
  have hlen := congrArg List.length (List.cons.inj hsplit).1
  have h2 := hw.2.1
  simp only [List.length_append, lower_length] at hlen
  omega

theorem splitIdentifer_accessor_ne_my_field :
    ¬ KeepsPrefix (bytes "get") (llvm (bytes "llvm")).getter (["my", "field"].map bytes) :=
  splitIdentifer_accessor_ne (llvm (bytes "llvm")) create_llvm (bytes "get")
    (llvm (bytes "llvm")).getter (by decide) (["my", "field"].map bytes) (by decide)
    (by unfold HumpWord; decide)

/-- The getter of `my field` is `getmyField`. -/
theorem splitIdentifer_getter_my_field :
    ¬ ∀ (nameStyle : NameStyle) (p : Str) (style : TypeNameStyle) (ws : List Str),
      NameStyleRegistry.new.create (bytes "llvm") = .ok nameStyle →
        (p, style) ∈ nameStyle.accessors → ws ≠ [] → (∀ w ∈ ws, HumpWord w) →
          KeepsPrefix p style ws := by
  intro hall
  obtain ⟨vs, hsplit, -⟩ := hall (llvm (bytes "llvm")) (bytes "get")
    (llvm (bytes "llvm")).getter (["my", "field"].map bytes) create_llvm (by decide) (by decide)
    (by unfold HumpWord; decide)
  have hget : (splitIdentifer (joinIdentifier (["my", "field"].map bytes)
      (llvm (bytes "llvm")).getter) none).1 = ["getmy", "Field"].map bytes := by decide
  rw [hget] at hsplit
  have hfirst := (List.cons.inj hsplit).1
  revert hfirst
  decide

/-! ## Sequences of registrations -/

/-- The ids of the registered styles.  The source lists them in the order of its hash table. -/
def NameStyleRegistry.getRegisteredNameStyles (registry : NameStyleRegistry) : List Str :=
  registry.nameStyles.keys

/-- The one registry of the program after calls of the free function `registerNameStyle`. -/
def registerNameStyles (calls : List (Str × NameStyleFactory)) : NameStyleRegistry :=
  calls.foldl (fun registry call => registry.registerNameStyle call.1 call.2) .new

theorem nameStyles_registerNameStyles (calls : List (Str × NameStyleFactory)) :
    (registerNameStyles calls).nameStyles =
      insertAll NameStyleRegistry.new.nameStyles calls := by
  have hrun : ∀ registry : NameStyleRegistry,
      (calls.foldl (fun registry call => registry.registerNameStyle call.1 call.2)
        registry).nameStyles = insertAll registry.nameStyles calls := by
    induction calls with
    | nil => exact fun _ => rfl
    | cons call calls ih => exact fun registry => ih (registry.registerNameStyle call.1 call.2)
  exact hrun .new

/-- **What the last registration of an id makes**, or throws. -/
theorem create_registerNameStyles_last (before : List (Str × NameStyleFactory)) (id : Str)
    (factory : NameStyleFactory) {after : List (Str × NameStyleFactory)}
    (h : id ∉ after.map Prod.fst) :
    (registerNameStyles (before ++ (id, factory) :: after)).create id = factory id := by
  rw [NameStyleRegistry.create, nameStyles_registerNameStyles, lookup_insertAll_last _ _ _ _ h]

theorem create_registerNameStyles_of_not_mem {calls : List (Str × NameStyleFactory)} {id : Str}
    (h : id ∉ calls.map Prod.fst) :
    (registerNameStyles calls).create id = NameStyleRegistry.new.create id := by
  rw [NameStyleRegistry.create, nameStyles_registerNameStyles, lookup_insertAll_of_not_mem h]
  rfl

/-- **The listed ids** are those of the constructor and the registered ones. -/
theorem mem_getRegisteredNameStyles_iff (calls : List (Str × NameStyleFactory)) (id : Str) :
    id ∈ (registerNameStyles calls).getRegisteredNameStyles ↔
      id = bytes "boost" ∨ id = bytes "llvm" ∨ id ∈ calls.map Prod.fst := by
  have hnew : id ∈ NameStyleRegistry.new.nameStyles ↔
      id = bytes "llvm" ∨ id = bytes "boost" := by
    show id ∈ AList.insert _ _ (AList.insert _ _ ∅) ↔ _
    rw [AList.mem_insert, AList.mem_insert, or_iff_left (AList.notMem_empty id)]
  show id ∈ (registerNameStyles calls).nameStyles.keys ↔ _
  rw [← AList.mem_keys, nameStyles_registerNameStyles, mem_insertAll, hnew]
  tauto

/-- An id that is not listed gives the error that names it. -/
theorem create_of_not_listed {calls : List (Str × NameStyleFactory)} {id : Str}
    (h : id ∉ (registerNameStyles calls).getRegisteredNameStyles) :
    (registerNameStyles calls).create id = .error (.invalidArgument
      (bytes "name style with id `" ++ id ++ bytes "` is not existing")) := by
  rw [mem_getRegisteredNameStyles_iff, not_or, not_or] at h
  rw [create_registerNameStyles_of_not_mem h.2.2, create_new, if_neg h.2.1, if_neg h.1]

/-- As long as no factory throws, the style of every listed id can be made. -/
theorem create_of_listed {calls : List (Str × NameStyleFactory)} {id : Str}
    (hcalls : ∀ call ∈ calls, ∀ id, ∃ style, call.2 id = .ok style)
    (h : id ∈ (registerNameStyles calls).getRegisteredNameStyles) :
    ∃ style, (registerNameStyles calls).create id = .ok style := by
  by_cases hid : id ∈ calls.map Prod.fst
  · obtain ⟨before, factory, after, rfl, hafter⟩ := exists_last_insertion hid
    rw [create_registerNameStyles_last before id factory hafter]
    exact hcalls (id, factory) (by simp) id
  · rw [create_registerNameStyles_of_not_mem hid, create_new]
    rcases (mem_getRegisteredNameStyles_iff calls id).1 h with rfl | rfl | hmem
    · exact ⟨_, rfl⟩
    · exact ⟨_, rfl⟩
    · exact absurd hmem hid

/-- **The registry after any registrations**: the styles of the constructor can be replaced but
    not removed, the last registration counts, each id is listed once, and an id that is not
    listed gives the error that names it.  A listed id has a style unless its factory throws. -/
theorem registeredNameStyles_run (calls : List (Str × NameStyleFactory)) (id : Str) :
    (∀ before factory after, calls = before ++ (id, factory) :: after →
      id ∉ after.map Prod.fst → (registerNameStyles calls).create id = factory id) ∧
    (id ∉ calls.map Prod.fst →
      (registerNameStyles calls).create id =
        if id = bytes "llvm" then .ok (llvm id)
        else if id = bytes "boost" then .ok (boost id)
        else .error (.invalidArgument
          (bytes "name style with id `" ++ id ++ bytes "` is not existing"))) ∧
    (id ∈ (registerNameStyles calls).getRegisteredNameStyles ↔
      id = bytes "boost" ∨ id = bytes "llvm" ∨ id ∈ calls.map Prod.fst) ∧
    (id ∉ (registerNameStyles calls).getRegisteredNameStyles →
      (registerNameStyles calls).create id = .error (.invalidArgument
        (bytes "name style with id `" ++ id ++ bytes "` is not existing"))) ∧
    ((∀ call ∈ calls, ∀ id, ∃ style, call.2 id = .ok style) →
      (id ∈ (registerNameStyles calls).getRegisteredNameStyles ↔
        ∃ style, (registerNameStyles calls).create id = .ok style)) ∧
    (registerNameStyles calls).getRegisteredNameStyles.Nodup := by
  refine ⟨?_, ?_, mem_getRegisteredNameStyles_iff calls id, create_of_not_listed,
    fun hcalls => ⟨create_of_listed hcalls, ?_⟩, AList.keys_nodup _⟩
  · rintro before factory after rfl hafter
    exact create_registerNameStyles_last before id factory hafter
  · intro hid
    rw [create_registerNameStyles_of_not_mem hid, create_new]
  · rintro ⟨style, hstyle⟩
    by_contra hid
    rw [create_of_not_listed hid] at hstyle
    cases hstyle

end RefactorCpp
