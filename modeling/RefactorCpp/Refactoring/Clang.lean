import RefactorCpp.Text

/-!
# The Clang installation

`internals/clang.h`, `internals/clang.cpp` and the arguments adjuster of `refactoringtask.cpp`: how
the prefix of the LLVM installation gets onto the command line of the compiler.

* `getClangResourcePathAdjuster_idempotent` — a second pass finds the argument of the first one.
* `getResourceDir_eq` — the resource directory is `lib/clang/<version>` below the prefix.
* `setLLVMPrefixes_eq` — **no sequence of `setLLVMPrefix` calls changes the object**.
* `prefixReaches_iff` — **when the configured prefix reaches the command line**.
-/

set_option autoImplicit false

namespace RefactorCpp

/-- A path as it stands before the next component: it gets a separator, unless it has one at its
    end or there is nothing to separate. -/
def withSeparator (path : Str) : Str :=
  if path = [] ∨ path.getLast? = some 0x2F then path else path ++ [0x2F]

/-- The parts of LLVM: the constants of its configuration, and `sys::path::append` on a system
    where `/` separates paths. -/
structure Llvm where
  /-- `LLVM_PREFIX`. -/
  llvmPrefix : Str
  /-- `LLVM_VERSION_STRING`. -/
  versionString : Str
  append : Str → List Str → Str
  versionString_ne_nil : versionString ≠ []
  versionString_head : versionString.head? ≠ some 0x2F
  append_cons : ∀ path component components,
    append path (component :: components) = append (append path [component]) components
  append_empty : ∀ component, append [] [component] = component
  append_component : ∀ path component, component ≠ [] → component.head? ≠ some 0x2F →
    append path [component] = withSeparator path ++ component

/-- Information about a Clang installation. -/
structure Clang where
  llvmPrefix : Str
  deriving DecidableEq, Repr

/-- The constructor of `Clang`. -/
def Clang.new (llvm : Llvm) : Clang := ⟨llvm.llvmPrefix⟩

/-- `prefix = llvm_prefix_`: what is assigned is the parameter. -/
def Clang.setLLVMPrefix (clang : Clang) (_newPrefix : Str) : Clang :=
  let _newPrefix := clang.llvmPrefix
  clang

/-- `Clang::getLLVMPrefix`. -/
def Clang.getLLVMPrefix (clang : Clang) : Str := clang.llvmPrefix

/-- `Clang::getResourceDir`. -/
def Clang.getResourceDir (llvm : Llvm) (clang : Clang) : Str :=
  llvm.append [] [clang.llvmPrefix, bytes "lib", bytes "clang", llvm.versionString]

/-- The arguments, and the name of the file they are for. -/
abbrev ArgumentsAdjuster := List Str → Str → List Str

/-- The lambda captures a copy of `clang`. -/
def getClangResourcePathAdjuster (llvm : Llvm) (clang : Clang) : ArgumentsAdjuster :=
  fun args _ =>
    if args.any fun arg => (bytes "-resource-dir").isPrefixOf arg then args
    else args ++ [bytes "-resource-dir=" ++ clang.getResourceDir llvm]

/-- What the constructor of `RefactoringTask` appends to the adjusters of its tool. -/
def RefactoringTask.argumentsAdjuster (llvm : Llvm) (clang : Clang) : ArgumentsAdjuster :=
  getClangResourcePathAdjuster llvm clang

variable (llvm : Llvm) (clang : Clang)

/-! ## The adjuster -/

/-- Some argument already gives a resource directory. -/
def HasResourceDir (args : List Str) : Prop := ∃ arg ∈ args, bytes "-resource-dir" <+: arg

theorem any_isPrefixOf_iff (args : List Str) :
    (args.any fun arg => (bytes "-resource-dir").isPrefixOf arg) = true ↔ HasResourceDir args := by
  simp [HasResourceDir]

theorem getClangResourcePathAdjuster_of_hasResourceDir {args : List Str} (h : HasResourceDir args)
    (filename : Str) : getClangResourcePathAdjuster llvm clang args filename = args := by
  rw [getClangResourcePathAdjuster, if_pos ((any_isPrefixOf_iff args).2 h)]

theorem getClangResourcePathAdjuster_of_not {args : List Str} (h : ¬ HasResourceDir args)
    (filename : Str) :
    getClangResourcePathAdjuster llvm clang args filename =
      args ++ [bytes "-resource-dir=" ++ clang.getResourceDir llvm] := by
  rw [getClangResourcePathAdjuster, if_neg (mt (any_isPrefixOf_iff args).1 h)]

/-- The appended argument is one of those that are looked for. -/
theorem hasResourceDir_getClangResourcePathAdjuster (args : List Str) (filename : Str) :
    HasResourceDir (getClangResourcePathAdjuster llvm clang args filename) := by
  by_cases h : HasResourceDir args
  · rw [getClangResourcePathAdjuster_of_hasResourceDir llvm clang h]
    exact h
  · rw [getClangResourcePathAdjuster_of_not llvm clang h]
    refine ⟨_, List.mem_append_right _ (List.mem_singleton_self _), ?_⟩
    exact ⟨bytes "=" ++ clang.getResourceDir llvm, rfl⟩

theorem getClangResourcePathAdjuster_idempotent (args : List Str) (filename filename' : Str) :
    getClangResourcePathAdjuster llvm clang
        (getClangResourcePathAdjuster llvm clang args filename) filename' =
      getClangResourcePathAdjuster llvm clang args filename :=
  getClangResourcePathAdjuster_of_hasResourceDir llvm clang
    (hasResourceDir_getClangResourcePathAdjuster llvm clang args filename) filename'

/-! ## The resource directory -/

theorem withSeparator_append (path : Str) {component : Str} (hne : component ≠ [])
    (hlast : component.getLast? ≠ some 0x2F) :
    withSeparator (path ++ component) = path ++ component ++ [0x2F] := by
  rw [withSeparator, if_neg]
  rintro (hnil | hslash)
  · exact hne (List.append_eq_nil_iff.1 hnil).2
  · rw [List.getLast?_append_of_ne_nil path hne] at hslash
    exact hlast hslash

/-- **`lib/clang/<version>` below the prefix**; no separator is doubled. -/
theorem getResourceDir_eq :
    clang.getResourceDir llvm =
      withSeparator clang.llvmPrefix ++ bytes "lib/clang/" ++ llvm.versionString := by
  unfold Clang.getResourceDir
  rw [llvm.append_cons, llvm.append_empty, llvm.append_cons,
    llvm.append_component _ (bytes "lib") (by decide) (by decide), llvm.append_cons,
    llvm.append_component _ (bytes "clang") (by decide) (by decide),
    llvm.append_component _ _ llvm.versionString_ne_nil llvm.versionString_head,
    withSeparator_append _ (by decide) (by decide),
    withSeparator_append _ (by decide) (by decide)]
  simp only [List.append_assoc]
  rfl

/-! ## The prefix -/

/-- Calls of `setLLVMPrefix`, one after the other. -/
def Clang.setLLVMPrefixes (calls : List Str) : Clang := calls.foldl Clang.setLLVMPrefix clang

@[simp] theorem Clang.setLLVMPrefix_eq (newPrefix : Str) : clang.setLLVMPrefix newPrefix = clang :=
  rfl

/-- **The object stays as it is**; induction over the calls. -/
theorem setLLVMPrefixes_eq (calls : List Str) : clang.setLLVMPrefixes calls = clang := by
  unfold Clang.setLLVMPrefixes
  induction calls with
  | nil => rfl
  | cons newPrefix calls ih => rw [List.foldl_cons, Clang.setLLVMPrefix_eq, ih]

/-- What is promised of a prefix that was set last, before the task is constructed. -/
structure PrefixReaches (calls : List Str) (p : Str) : Prop where
  returned : (clang.setLLVMPrefixes (calls ++ [p])).getLLVMPrefix = p
  unchanged : ∀ args filename, HasResourceDir args →
    RefactoringTask.argumentsAdjuster llvm (clang.setLLVMPrefixes (calls ++ [p])) args filename =
      args
  appended : ∀ args filename, ¬ HasResourceDir args →
    RefactoringTask.argumentsAdjuster llvm (clang.setLLVMPrefixes (calls ++ [p])) args filename =
      args ++ [bytes "-resource-dir=" ++
        (withSeparator p ++ bytes "lib/clang/" ++ llvm.versionString)]
  idempotent : ∀ args filename filename',
    RefactoringTask.argumentsAdjuster llvm (clang.setLLVMPrefixes (calls ++ [p]))
        (RefactoringTask.argumentsAdjuster llvm (clang.setLLVMPrefixes (calls ++ [p])) args
          filename) filename' =
      RefactoringTask.argumentsAdjuster llvm (clang.setLLVMPrefixes (calls ++ [p])) args filename

/-- **The prefix that was set last reaches the command line** if it is the one the object had
    before. -/
theorem prefixReaches_iff (calls : List Str) (p : Str) :
    PrefixReaches llvm clang calls p ↔ clang.llvmPrefix = p := by
  have hset := setLLVMPrefixes_eq clang (calls ++ [p])
  constructor
  · intro h
    have hreturned := h.returned
    rw [hset] at hreturned
    exact hreturned
  · rintro rfl
    constructor
    · rw [hset, Clang.getLLVMPrefix]
    · intro args filename h
      exact getClangResourcePathAdjuster_of_hasResourceDir llvm _ h filename
    · intro args filename h
      rw [hset, ← getResourceDir_eq]
      exact getClangResourcePathAdjuster_of_not llvm clang h filename
    · intro args filename filename'
      exact getClangResourcePathAdjuster_idempotent llvm _ args filename filename'

/-! ## A system with `/` -/

/-- One component: the separators at its start do not repeat the one before. -/
def appendComponent (path component : Str) : Str :=
  if path.getLast? = some 0x2F then path ++ component.dropWhile (· == 0x2F)
  else if path = [] ∨ component.head? = some 0x2F then path ++ component
  else path ++ 0x2F :: component

theorem appendComponent_eq (path : Str) {component : Str} (hhead : component.head? ≠ some 0x2F) :
    appendComponent path component = withSeparator path ++ component := by
  unfold appendComponent withSeparator
  by_cases hlast : path.getLast? = some 0x2F
  · rw [if_pos hlast, if_pos (.inr hlast)]
    cases component with
    | nil => rfl
    | cons c r => rw [List.dropWhile_cons_of_neg (by simpa using hhead)]
  · rw [if_neg hlast]
    by_cases hne : path = []
    · rw [if_pos (.inl hne), if_pos (.inl hne)]
    · rw [if_neg (not_or.2 ⟨hne, hhead⟩), if_neg (not_or.2 ⟨hne, hlast⟩), List.append_assoc]
      rfl

/-- An installation of LLVM 3.8.0 below `/usr`. -/
def Llvm.usr : Llvm where
  llvmPrefix := bytes "/usr"
  versionString := bytes "3.8.0"
  append := List.foldl appendComponent
  versionString_ne_nil := by decide
  versionString_head := by decide
  append_cons := fun _ _ _ => rfl
  append_empty := fun component => by
    show appendComponent [] component = component
    rw [appendComponent, if_neg (by simp), if_pos (.inl rfl), List.nil_append]
  append_component := fun path _ _ hhead => appendComponent_eq path hhead

/-- After `setLLVMPrefix("/opt/llvm")` the prefix is still `/usr`. -/
theorem not_prefixReaches_opt :
    ¬ PrefixReaches Llvm.usr (Clang.new Llvm.usr) [] (bytes "/opt/llvm") := by
  intro h
  have hreturned := h.returned
  revert hreturned
  decide

end RefactorCpp
