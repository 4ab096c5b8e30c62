import Apple.Lib.Run
import Apple.Objc.WeakRegistry

/-!
# Weak variables under interleaving

`objc_storeWeak` and its relatives, `objc_loadWeakRetained`, retain and release, and
`clearDeallocating` (`objc4-750/runtime/NSObject.mm`, 269–355, 467–523, 1273–1293;
`objc-object.h`, 386–439) as a transition system: every thread has a program counter, and one
step is one access to the shared state. The weak tables are the abstract ones of
`Apple.Objc.WeakRegistry`, all in one set of pairs; the retain count is the extra count of an
object without its representation.

The auxiliary fields of `Shared` do not influence the others. They say which variables are live,
which thread is storing into a variable, which objects are being stored, and how far the
deallocation of an object has come.
-/

namespace Apple.Objc.WeakVariable

open Apple.Lib Apple.Objc.Weak Function

/-! ## The state -/

/-- What does not change while the program runs: the stripe of a pointer in `SideTables()`,
which pointers are tagged, and for objects whether the `isa` is packed, the class, and
whether the class overrides retain and release. -/
structure Runtime where
  tableOf : ℕ → ℕ
  isTaggedPointer : ℕ → Bool
  nonpointer : ℕ → Bool
  classOf : ℕ → ℕ
  hasCustomRR : ℕ → Bool

/-- The pointer is an object in memory. -/
def Runtime.IsObject (R : Runtime) (ptr : ℕ) : Prop := ptr ≠ 0 ∧ R.isTaggedPointer ptr = false

instance (R : Runtime) (ptr : ℕ) : Decidable (R.IsObject ptr) :=
  inferInstanceAs (Decidable (_ ∧ _))

/-- A weak variable before its initialisation or after `objc_destroyWeak` (`dead`), in use
(`live`), and between the unregistration and the assignment of a store into it (`changing`),
or of its initialisation (`starting`). -/
inductive Status where
  | dead
  | live
  | changing
  | starting
deriving DecidableEq, Repr

/-- The deallocation of an object: not begun, in the `clearDeallocating` of a thread, which may
be in the loop of `weak_clear_no_lock`, or completed. -/
inductive Stage (ι : Type*) where
  | alive
  | clearing (t : ι) (sweeping : Bool)
  | cleared
deriving DecidableEq

structure Shared (ι : Type*) where
  /-- The variables. -/
  mem : ℕ → ℕ
  /-- The weak tables. -/
  registry : Registry
  /-- The weakly-referenced bits, in the `isa` or in the side table. -/
  weaklyReferenced : ℕ → Bool
  /-- The deallocating bits. -/
  deallocating : ℕ → Bool
  extraRc : ℕ → ℕ
  /-- The classes that have completed `+initialize`. -/
  isInitialized : ℕ → Bool
  /-- The holders of the side-table locks. -/
  lock : ℕ → Option ι
  status : ℕ → Status
  writer : ℕ → Option ι
  users : ℕ → Finset ι
  stage : ℕ → Stage ι

/-- The template arguments and arguments of `storeWeak` (269–273). -/
structure StoreArgs where
  haveOld : Bool
  haveNew : Bool
  crashIfDeallocating : Bool
  location : ℕ
  newObj : ℕ
deriving DecidableEq, Repr

/-- Program points of `storeWeak`, with the locals `previouslyInitializedClass`, `oldObj` and the
`newObj` that `weak_register_no_lock` returned. -/
inductive StorePc where
  | read (prev : Option ℕ)
  | lock (prev : Option ℕ) (oldObj : ℕ)
  | check (prev : Option ℕ) (oldObj : ℕ)
  | testClass (prev : Option ℕ) (oldObj : ℕ)
  | classInit (cls : ℕ)
  | unregister (oldObj : ℕ)
  | register (oldObj : ℕ)
  | setBit (oldObj newObj : ℕ)
  | assign (oldObj newObj : ℕ)
  | unlock (oldObj : ℕ)
deriving DecidableEq, Repr

/-- Program points of `objc_loadWeakRetained`. -/
inductive LoadPc where
  | read
  | lock (obj : ℕ)
  | check (obj : ℕ)
  | retain (obj : ℕ)
  | classInit (cls : ℕ)
  | unlock (obj result : ℕ)
deriving DecidableEq, Repr

/-- Program points of `clearDeallocating`, with the variables that the loop of
`weak_clear_no_lock` has yet to visit. -/
inductive ClearPc where
  | test
  | lock
  | locked
  | sweep (referrers : List ℕ)
  | remove
  | erase
deriving DecidableEq, Repr

inductive Pc where
  | idle
  | store (a : StoreArgs) (p : StorePc)
  | load (location : ℕ) (p : LoadPc)
  | clear (obj : ℕ) (p : ClearPc)
deriving DecidableEq, Repr

/-- The calls. -/
inductive Op where
  | storeWeak (a : StoreArgs)
  | loadWeakRetained (location : ℕ)
  | rootRetain (obj : ℕ)
  | rootRelease (obj : ℕ)
  | clearDeallocating (obj : ℕ)
deriving DecidableEq, Repr

/-- `objc_storeWeak` (369–374). -/
def objcStoreWeak (location newObj : ℕ) : Op := .storeWeak ⟨true, true, true, location, newObj⟩

/-- `objc_storeWeakOrNil` (387–392). -/
def objcStoreWeakOrNil (location newObj : ℕ) : Op :=
  .storeWeak ⟨true, true, false, location, newObj⟩

/-- `objc_initWeak` (413–424). -/
def objcInitWeak (location newObj : ℕ) : Op := .storeWeak ⟨false, true, true, location, newObj⟩

/-- `objc_initWeakOrNil` (426–436). -/
def objcInitWeakOrNil (location newObj : ℕ) : Op :=
  .storeWeak ⟨false, true, false, location, newObj⟩

/-- `objc_destroyWeak` (450–455). -/
def objcDestroyWeak (location : ℕ) : Op := .storeWeak ⟨true, false, false, location, 0⟩

/-- What the program and the environment decide in a step: the call of an idle thread, the
answer of an overridden `allowsWeakReference` or `retainWeakReference` (`none` without the
method), whether `+initialize` has completed or is running on this thread, whether the
object's count has ever overflowed, and the order of the entry's referrers. -/
structure Choice where
  call : Option Op
  answer : Option Bool
  initialized : Bool
  hasSidetableRc : Bool
  scan : List ℕ

/-- The choice that a step without one ignores. -/
def Choice.go : Choice := ⟨none, none, false, false, []⟩

def Choice.op (o : Op) : Choice := { Choice.go with call := some o }

/-- The events of interest: `objc_loadWeakRetained` retains an object, and returns. -/
inductive Event where
  | silent
  | retained (location obj : ℕ)
  | returned (location result : ℕ)
deriving DecidableEq, Repr

/-! ## The steps -/

section Steps

variable {ι : Type*} [DecidableEq ι] (R : Runtime) (t : ι) (sh : Shared ι)

abbrev Result (ι : Type*) := Option (Event × Pc × Shared ι)

/-- A step that only moves the program counter. -/
def goto (p : Pc) : Result ι := some (.silent, p, sh)

/-- Lock the tables `ls`, all at once. -/
def Shared.lockAll (ls : List ℕ) : Shared ι :=
  { sh with lock := fun l => if l ∈ ls then some t else sh.lock l }

def Shared.unlockAll (ls : List ℕ) : Shared ι :=
  { sh with lock := fun l => if l ∈ ls then none else sh.lock l }

def lockThen (ls : List ℕ) (p : Pc) : Result ι :=
  if ∀ l ∈ ls, sh.lock l = none then some (.silent, p, sh.lockAll t ls) else none

/-- The tables that `lockTwo<haveOld, haveNew>` locks. -/
def StoreArgs.tables (a : StoreArgs) (oldObj : ℕ) : List ℕ :=
  (if a.haveOld then [R.tableOf oldObj] else []) ++ (if a.haveNew then [R.tableOf a.newObj] else [])

/-- The status of the variable before a store changes it. -/
def StoreArgs.before (a : StoreArgs) : Status := if a.haveOld then .live else .dead

/-- The status of the variable between unregistration and assignment. -/
def StoreArgs.during (a : StoreArgs) : Status := if a.haveOld then .changing else .starting

/-- After `weak_unregister_no_lock` for the old object. -/
def Shared.unregistered (a : StoreArgs) (oldObj : ℕ) (status : Status) : Shared ι :=
  { sh with
    registry := if a.haveOld then sh.registry.erase (oldObj, a.location) else sh.registry
    status := update sh.status a.location status }

/-- What `weak_register_no_lock` learns about an object. An overridden `allowsWeakReference` keeps
the contract of `NSObject`'s: it does not answer YES for a deallocating object. -/
def referentInfo (c : Choice) (obj : ℕ) : ReferentInfo where
  isTaggedPointer := R.isTaggedPointer obj
  hasCustomRR := R.hasCustomRR obj
  rootIsDeallocating := sh.deallocating obj
  allowsWeakReference := c.answer.map (· && !sh.deallocating obj)

/-- What `weak_register_no_lock` (390–440) decides: whether it remembers the referrer, and the
`id` it returns; `none` when it ends the process. -/
def registerOutcome (c : Choice) (a : StoreArgs) : Option (Bool × ℕ) :=
  if R.IsObject a.newObj then
    match (referentInfo R sh c a.newObj).deallocating with
    | none => some (false, 0)
    | some true => if a.crashIfDeallocating then none else some (false, 0)
    | some false => some (true, a.newObj)
  else some (false, a.newObj)

/-- `storeWeak` (269–355). -/
def storeStep (c : Choice) (a : StoreArgs) : StorePc → Result ι
  | .read prev =>
    goto sh (.store a (.lock prev (if a.haveOld then sh.mem a.location else 0)))
  | .lock prev oldObj => lockThen t sh (a.tables R oldObj) (.store a (.check prev oldObj))
  | .check prev oldObj =>
    if a.haveOld ∧ sh.mem a.location ≠ oldObj then
      some (.silent, .store a (.read prev), sh.unlockAll (a.tables R oldObj))
    else goto sh (.store a (.testClass prev oldObj))
  | .testClass prev oldObj =>
    let cls := R.classOf a.newObj
    if a.haveNew ∧ a.newObj ≠ 0 ∧ prev ≠ some cls ∧ ¬ sh.isInitialized cls then
      some (.silent, .store a (.classInit cls), sh.unlockAll (a.tables R oldObj))
    else goto sh (.store a (.unregister oldObj))
  | .classInit cls =>
    -- still running on this thread, or completed
    let sh := if c.initialized then
        { sh with isInitialized := update sh.isInitialized cls true }
      else sh
    some (.silent, .store a (.read (some cls)), sh)
  | .unregister oldObj =>
    if a.haveNew then
      some (.silent, .store a (.register oldObj), sh.unregistered a oldObj a.during)
    else some (.silent, .store a (.unlock oldObj), sh.unregistered a oldObj .dead)
  | .register oldObj =>
    match registerOutcome R sh c a with
    | none => none
    | some (remembered, newObj) =>
      let sh := if remembered then
          { sh with registry := insert (newObj, a.location) sh.registry }
        else sh
      if R.IsObject newObj then some (.silent, .store a (.setBit oldObj newObj), sh)
      else some (.silent, .store a (.assign oldObj newObj), sh)
  | .setBit oldObj newObj =>
    -- `setWeaklyReferenced_nolock` (objc-object.h, 386–404)
    some (.silent, .store a (.assign oldObj newObj),
      { sh with weaklyReferenced := update sh.weaklyReferenced newObj true })
  | .assign oldObj newObj =>
    some (.silent, .store a (.unlock oldObj),
      { sh with
        mem := update sh.mem a.location newObj
        status := update sh.status a.location .live })
  | .unlock oldObj =>
    let sh := sh.unlockAll (a.tables R oldObj)
    some (.silent, .idle,
      { sh with
        writer := update sh.writer a.location none
        users := update sh.users a.newObj ((sh.users a.newObj).erase t) })

/-- `rootTryRetain` of the object whose table is locked, or what the overridden
`retainWeakReference` does of it. -/
def tryRetain (location obj : ℕ) : Result ι :=
  if sh.deallocating obj then goto sh (.load location (.unlock obj 0))
  else some (.retained location obj, .load location (.unlock obj obj),
    { sh with extraRc := update sh.extraRc obj (sh.extraRc obj + 1) })

/-- `objc_loadWeakRetained` (467–523). -/
def loadStep (c : Choice) (location : ℕ) : LoadPc → Result ι
  | .read =>
    let obj := sh.mem location
    if R.IsObject obj then goto sh (.load location (.lock obj))
    else some (.returned location obj, .idle, sh)
  | .lock obj => lockThen t sh [R.tableOf obj] (.load location (.check obj))
  | .check obj =>
    if sh.mem location ≠ obj then
      some (.silent, .load location .read, sh.unlockAll [R.tableOf obj])
    else goto sh (.load location (.retain obj))
  | .retain obj =>
    if ¬ R.hasCustomRR obj then tryRetain sh location obj
    else if sh.isInitialized (R.classOf obj) ∨ c.initialized then
      if c.answer = some true then tryRetain sh location obj
      else goto sh (.load location (.unlock obj 0))
    else some (.silent, .load location (.classInit (R.classOf obj)),
      sh.unlockAll [R.tableOf obj])
  | .classInit cls =>
    some (.silent, .load location .read,
      { sh with isInitialized := update sh.isInitialized cls true })
  | .unlock obj result => some (.returned location result, .idle, sh.unlockAll [R.tableOf obj])

/-- `clearDeallocating` (objc-object.h, 424–439) with `clearDeallocating_slow`
(NSObject.mm, 1273–1293) for a packed `isa` and `sidetable_clearDeallocating`
(NSObject.mm, 1635–1651) for a raw one. The first test is made without the lock; it is also
the one by which `rootDealloc` frees an object at once. -/
def clearStep (c : Choice) (obj : ℕ) : ClearPc → Result ι
  | .test =>
    if R.nonpointer obj ∧ ¬ sh.weaklyReferenced obj ∧ ¬ c.hasSidetableRc then
      some (.silent, .idle, { sh with stage := update sh.stage obj .cleared })
    else goto sh (.clear obj .lock)
  | .lock => lockThen t sh [R.tableOf obj] (.clear obj .locked)
  | .locked =>
    if sh.weaklyReferenced obj then
      if c.scan.toFinset = referrers sh.registry obj then
        some (.silent, .clear obj (.sweep c.scan),
          { sh with stage := update sh.stage obj (.clearing t true) })
      else none
    else goto sh (.clear obj .erase)
  | .sweep [] => goto sh (.clear obj .remove)
  | .sweep (referrer :: referrers) =>
    some (.silent, .clear obj (.sweep referrers),
      if sh.mem referrer = obj then { sh with mem := update sh.mem referrer 0 } else sh)
  | .remove =>
    some (.silent, .clear obj .erase,
      { sh with
        registry := sh.registry.filter (·.1 ≠ obj)
        stage := update sh.stage obj (.clearing t false) })
  | .erase =>
    let sh := { sh.unlockAll [R.tableOf obj] with
      stage := update sh.stage obj .cleared }
    some (.silent, .idle,
      if R.nonpointer obj then sh
      else { sh with
        weaklyReferenced := update sh.weaklyReferenced obj false
        deallocating := update sh.deallocating obj false
        extraRc := update sh.extraRc obj 0 })

/-- The count of a raw object is in the side table and changes under its lock. -/
def CountFree (obj : ℕ) : Prop :=
  R.nonpointer obj = true ∨ sh.lock (R.tableOf obj) = none

instance (sh : Shared ι) (obj : ℕ) : Decidable (CountFree R sh obj) :=
  inferInstanceAs (Decidable (_ ∨ _))

/-- The first step of a call. No two threads store into one variable at the same time, and
`clearDeallocating` is called once, for a deallocating object. -/
def callStep : Op → Result ι
  | .storeWeak a =>
    if sh.writer a.location ≠ none ∨ (a.haveOld = false ∧ a.haveNew = false) then none
    else if ¬ a.haveOld ∧ a.newObj = 0 then
      some (.silent, .idle,
        { sh with
          mem := update sh.mem a.location 0
          status := update sh.status a.location .live })
    else
      some (.silent, .store a (.read none),
        { sh with
          writer := update sh.writer a.location (some t)
          users := if a.haveNew then
              update sh.users a.newObj (insert t (sh.users a.newObj))
            else sh.users })
  | .loadWeakRetained location => goto sh (.load location .read)
  | .rootRetain obj =>
    if CountFree R sh obj then
      goto { sh with extraRc := update sh.extraRc obj (sh.extraRc obj + 1) } .idle
    else none
  | .rootRelease obj =>
    if CountFree R sh obj then
      if sh.extraRc obj = 0 then
        goto { sh with deallocating := update sh.deallocating obj true } .idle
      else goto { sh with extraRc := update sh.extraRc obj (sh.extraRc obj - 1) } .idle
    else none
  | .clearDeallocating obj =>
    if R.IsObject obj ∧ sh.deallocating obj = true ∧ sh.stage obj = .alive then
      some (.silent, .clear obj .test,
        { sh with stage := update sh.stage obj (.clearing t false) })
    else none

/-- One step of thread `t`. -/
def threadStep (pc : Pc) (sh : Shared ι) (c : Choice) : Result ι :=
  match pc with
  | .idle =>
    match c.call with
    | none => none
    | some op => callStep R t sh op
  | .store a p => storeStep R t sh c a p
  | .load location p => loadStep R t sh c location p
  | .clear obj p => clearStep R t sh c obj p

end Steps

/-! ## The system -/

section System

variable {ι : Type*} [DecidableEq ι] (R : Runtime)

/-- The state of the whole system. -/
abbrev State (ι : Type*) := Threads ι Pc (Shared ι)

/-- A step of any thread. -/
abbrev Step : State ι → ι × Event → State ι → Prop :=
  Interleave fun t pc sh e pc' sh' => ∃ c, threadStep R t pc sh c = some (e, pc', sh')

/-- The rules of use of the calls. A store needs a variable in use, an initialisation one that is
not. An object is stored by threads that keep it from being deallocated meanwhile: its
`clearDeallocating` does not begin during the store, and the store does not begin after
it. -/
def Allowed (sh : Shared ι) : Op → Prop
  | .storeWeak a =>
    sh.status a.location = a.before ∧
      (a.haveNew = true → sh.stage a.newObj = .alive)
  | .clearDeallocating obj => sh.users obj = ∅
  | _ => True

/-- The steps of a thread that keeps the rules of use. -/
def SafeThreadStep (t : ι) (pc : Pc) (sh : Shared ι) (e : Event) (pc' : Pc) (sh' : Shared ι) :
    Prop :=
  ∃ c, (pc = .idle → ∀ op, c.call = some op → Allowed sh op) ∧
    threadStep R t pc sh c = some (e, pc', sh')

abbrev SafeStep : State ι → ι × Event → State ι → Prop := Interleave (SafeThreadStep R)

/-- The start: no call is running, no lock is held, nothing is registered, no deallocation has
begun, and the variables in use are nil. -/
structure Initial (g : State ι) : Prop where
  idle : ∀ t, g.pc t = .idle
  mem : ∀ v, g.shared.status v = .live → g.shared.mem v = 0
  status : ∀ v, g.shared.status v = .live ∨ g.shared.status v = .dead
  registry : g.shared.registry = ∅
  lock : ∀ l, g.shared.lock l = none
  writer : ∀ v, g.shared.writer v = none
  users : ∀ o, g.shared.users o = ∅
  stage : ∀ o, g.shared.stage o = .alive

end System

end Apple.Objc.WeakVariable
