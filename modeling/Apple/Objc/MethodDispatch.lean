import Apple.Lib.Forest
import Apple.Objc.MethodLists

/-!
# Method lookup and changes of methods (`objc4-750/runtime/objc-runtime-new.mm`)

The classes and metaclasses of a process are the elements of a finite type. Each has a
superclass, an array of method lists and a method cache; the realized classes form a
forest by superclass, with lists of subclasses.

`lookUpImpOrForward` searches the cache and the method lists of the class and of its
superclasses and caches what it finds in the class. Between its first search and the
second one it calls the method resolver without holding the lock. The functions that
change methods or superclasses erase the caches of the classes below the change.

All classes are realized and initialized, which is when caches are filled. The flags that
track overrides of some methods of the root class, and the logging of messages, are left
out.
-/

namespace Apple.Objc.Messaging

open Apple.Lib

variable {C : Type}

/-- The classes of a process. `tree` has `superclass`, `firstSubclass` with
`_firstRealizedClass`, and `nextSiblingClass`; `namedClasses` is the number of classes in the
tables of class names. -/
structure Runtime (C : Type) where
  tree : Pointers C
  isa : C → C
  isMetaClass : C → Bool
  methods : C → ListArray MethodList
  cache : C → Cache
  namedClasses : ℕ

/-- `struct category_t`, the method lists -/
structure Category where
  instanceMethods : Option MethodList
  classMethods : Option MethodList

/-- `methodsForMeta` (`objc-runtime-new.h` lines 1467–1474) -/
def Category.methodsForMeta (cat : Category) (isMeta : Bool) : Option MethodList :=
  if isMeta then cat.classMethods else cat.instanceMethods

/-- A `Method`: the place of a `method_t`. -/
structure MethodRef (C : Type) where
  cls : C
  list : ℕ
  index : ℕ

namespace Runtime

/-- `unreasonableClassCount` (lines 1206–1217) -/
def unreasonableClassCount (rt : Runtime C) : ℕ := (rt.namedClasses + 1) * 16

/-- The method lists of a class. -/
def lists (rt : Runtime C) (cls : C) : List MethodList := (rt.methods cls).lists

/-- The `method_t` at a place. -/
def methodAt (rt : Runtime C) (m : MethodRef C) : Option Method :=
  (rt.lists m.cls)[m.list]?.bind fun l => l.methods[m.index]?

variable [DecidableEq C]

section

variable (arch : CacheArch) (cls : C) (sel : Sel)

/-- `cache_fill` for a class -/
def cacheFill (imp : Imp) (rt : Runtime C) : Except Fault (Runtime C) := do
  let c ← (rt.cache cls).fill arch sel imp
  .ok { rt with cache := Function.update rt.cache cls c }

/-! ## Lookup -/

/-- The loop over the superclasses in `lookUpImpOrForward` (lines 4969–5003) from `curClass` on:
the implementation found there, or `none` at the end and at a cached forward entry. -/
def searchSuperclasses (arch : CacheArch) (rt : Runtime C) (sel : Sel) :
    (attempts : ℕ) → Option C → Except Fault (Option Imp)
  | _, none => .ok none
  | 0, some _ => .error .classList
  | attempts + 1, some curClass =>
    if attempts = 0 then .error .classList
    else
      let imp := (rt.cache curClass).getImp arch sel
      if imp ≠ .null then
        if imp ≠ .forward then .ok (some imp) else .ok none
      else
        match (getMethodNoSuper sel (rt.lists curClass)).bind fun p =>
            rt.methodAt ⟨curClass, p.1, p.2⟩ with
        | some meth => .ok (some meth.imp)
        | none => searchSuperclasses arch rt sel attempts (rt.tree.parent curClass)

/-- `lookUpImpOrForward` from `retry:` on (lines 4949–5005), up to the method resolver. What is
found is cached in the class. -/
def search (rt : Runtime C) : Except Fault (Option Imp × Runtime C) := do
  let imp := (rt.cache cls).getImp arch sel
  if imp ≠ .null then .ok (some imp, rt)
  else
    match (getMethodNoSuper sel (rt.lists cls)).bind fun p => rt.methodAt ⟨cls, p.1, p.2⟩ with
    | some meth => do
      let rt ← rt.cacheFill arch cls sel meth.imp
      .ok (some meth.imp, rt)
    | none => do
      let found ← searchSuperclasses arch rt sel rt.unreasonableClassCount (rt.tree.parent cls)
      match found with
      | some imp => do
        let rt ← rt.cacheFill arch cls sel imp
        .ok (some imp, rt)
      | none => .ok (none, rt)

/-- No implementation was found: use forwarding (lines 5019–5023). -/
def useForwarding (rt : Runtime C) : Except Fault (Imp × Runtime C) := do
  let rt ← rt.cacheFill arch cls sel .forward
  .ok (.forward, rt)

/-- `lookUpImpOrForward` (lines 4907–5027) until it returns, or until it calls the method resolver
(`none`). -/
def lookUpImpOrForward (cache resolver : Bool)
    (rt : Runtime C) : Except Fault (Option Imp × Runtime C) :=
  let imp := (rt.cache cls).getImp arch sel
  if cache ∧ imp ≠ .null then .ok (some imp, rt)
  else do
    let (found, rt) ← rt.search arch cls sel
    match found with
    | some imp => .ok (some imp, rt)
    | none =>
      if resolver then .ok (none, rt)
      else do
        let (imp, rt) ← rt.useForwarding arch cls sel
        .ok (some imp, rt)

/-- `lookUpImpOrForward` after the method resolver (`goto retry` with `triedResolver`). -/
def lookUpAfterResolver (rt : Runtime C) : Except Fault (Imp × Runtime C) := do
  let (found, rt) ← rt.search arch cls sel
  match found with
  | some imp => .ok (imp, rt)
  | none => rt.useForwarding arch cls sel

end

/-! ## Changes -/

/-- `flushCaches` (lines 2129–2146). The loops over the classes are
`foreach_realized_class_and_subclass` and `foreach_realized_class_and_metaclass`
(`objc-runtime-new.h` lines 1492–1557). -/
def flushCaches (cls : Option C) (rt : Runtime C) : Except Fault (Runtime C) :=
  let count := rt.unreasonableClassCount
  let visited := match cls with
    | some top => visit rt.tree top count
    | none => visitAll rt.tree count count (rt.tree.head none)
  match visited with
  | none => .error .classList
  | some (classes, _) =>
    .ok { rt with cache := fun c => if c ∈ classes then (rt.cache c).erase else rt.cache c }

/-- Write to a `method_t`. -/
def setImp (m : MethodRef C) (imp : Imp) (rt : Runtime C) : Runtime C :=
  let lists := (rt.methods m.cls).modify m.list fun l => l.setImp m.index imp
  { rt with methods := Function.update rt.methods m.cls lists }

/-- Put lists in front of the lists of a class. -/
def attach (cls : C) (added : List MethodList) (rt : Runtime C) : Runtime C :=
  { rt with methods := Function.update rt.methods cls ((rt.methods cls).attachLists added) }

/-- `_method_setImplementation` (lines 3067–3086) -/
def setImplementation (cls : Option C) (m : MethodRef C) (imp : Imp) (rt : Runtime C) :
    Except Fault (Runtime C) :=
  if rt.methodAt m = none then .ok rt
  else if imp = .null then .ok rt
  else (rt.setImp m imp).flushCaches cls

/-- `method_setImplementation` (lines 3088–3095) -/
def methodSetImplementation (m : MethodRef C) (imp : Imp) (rt : Runtime C) :
    Except Fault (Runtime C) :=
  rt.setImplementation none m imp

/-- `method_exchangeImplementations` (lines 3098–3118) -/
def methodExchangeImplementations (m₁ m₂ : MethodRef C) (rt : Runtime C) :
    Except Fault (Runtime C) :=
  match rt.methodAt m₁, rt.methodAt m₂ with
  | some meth₁, some meth₂ => ((rt.setImp m₁ meth₂.imp).setImp m₂ meth₁.imp).flushCaches none
  | _, _ => .ok rt

/-- `addMethod` (lines 5731–5769); `class_addMethod` does not replace, `class_replaceMethod`
does. -/
def addMethod (cls : C) (name : Sel) (imp : Imp) (replace : Bool) (rt : Runtime C) :
    Except Fault (Runtime C) :=
  match getMethodNoSuper name (rt.lists cls) with
  | some (i, j) => if replace then rt.setImplementation (some cls) ⟨cls, i, j⟩ imp else .ok rt
  | none =>
    let newlist : MethodList := ⟨[⟨name, imp⟩], true, true, fun _ => List.pairwise_singleton ..⟩
    (rt.attach cls (prepareMethodLists [newlist])).flushCaches (some cls)

/-- `attachCategories` (lines 765–835); `cats` has the oldest category first. -/
def attachCategories (cls : C) (cats : List Category) (flush : Bool) (rt : Runtime C) :
    Except Fault (Runtime C) :=
  let mlists := cats.reverse.filterMap fun cat => cat.methodsForMeta (rt.isMetaClass cls)
  let rt := rt.attach cls (prepareMethodLists mlists)
  if flush ∧ mlists ≠ [] then rt.flushCaches (some cls) else .ok rt

/-- `removeSubclass` (lines 1624–1639) -/
def removeSubclass [Fintype C] (supercls subcls : C) (rt : Runtime C) : Except Fault (Runtime C) :=
  if rt.tree.parent subcls = some supercls then
    match rt.tree.unlink (Fintype.card C) (some supercls) subcls with
    | some tree => .ok { rt with tree := tree }
    | none => .error .assertion
  else .error .assertion

/-- `addSubclass` (lines 1584–1616), the lists of subclasses -/
def addSubclass (supercls subcls : C) (rt : Runtime C) : Runtime C :=
  { rt with tree := rt.tree.push (some supercls) subcls }

/-- `cls->superclass = newSuper` -/
def writeSuperclass (cls newSuper : C) (rt : Runtime C) : Runtime C :=
  { rt with tree := { rt.tree with parent := Function.update rt.tree.parent cls (some newSuper) } }

/-- `setSuperclass` (lines 7065–7087) -/
def setSuperclass [Fintype C] (cls newSuper : C) (rt : Runtime C) : Except Fault (Runtime C) :=
  match rt.tree.parent cls with
  | none => .error .assertion
  | some oldSuper => do
    let rt ← rt.removeSubclass oldSuper cls
    let rt ← rt.removeSubclass (rt.isa oldSuper) (rt.isa cls)
    let rt := rt.writeSuperclass cls newSuper
    let rt := rt.writeSuperclass (rt.isa cls) (rt.isa newSuper)
    let rt := rt.addSubclass newSuper cls
    let rt := rt.addSubclass (rt.isa newSuper) (rt.isa cls)
    -- flush the subclass's method caches
    let rt ← rt.flushCaches (some cls)
    rt.flushCaches (some (rt.isa cls))

end Runtime

/-! ## The uncached walk -/

/-- The implementation that the classes on the way up from `cls` give without caches: that of the
first class with a method for the selector, from the earliest of its lists that has one. -/
def uncachedImp [Fintype C] (rt : Runtime C) (cls : C) (sel : Sel) : Imp :=
  (searchUp rt.tree (fun c => (firstMethod (rt.lists c) sel).map Method.imp)
    (Fintype.card C) cls).getD .forward

end Apple.Objc.Messaging
