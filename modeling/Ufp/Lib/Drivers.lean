/-
# Ufp.Lib.Drivers — the drivers a process has loaded, `lib/lib_dev.c`

Drivers are shared libraries. `ufp_dev_load_lib` opens each library of a directory and keeps
its handle in the list `dylibs`; when a library is opened for the first time, its
constructor registers the device ids it drives in the list `pci_entries`, and when it is
closed for the last time its destructor takes them out again. `ufp_dev_init` and
`ufp_dev_destroy` go through that list and call into the library of the entry they find.

`ufp_dev_register` either registers all ids or none: at an id that is taken it takes back
those it has registered (`ufpDevRegister_atomic`). A destructor takes out entries by their
ids, whoever registered them; since no id is in the list twice, none of its own is left.

The two lists are those of `Ufp.Lib.CircularList`, each as the list it stands for. Every
member of a list is a block from `malloc`, which may refuse; `blocks` counts those that
were not given back.

* `Stable`: every entry belongs to a library that is open. `dlopen` and `dlclose` keep this;
* `drivers_stay_loaded`: after any calls no device is handed to a library that is closed, and
  closing all libraries empties both lists and gives back all blocks.
-/
import Mathlib.Algebra.Order.Ring.Nat
import Mathlib.Data.List.Nodup
import Mathlib.Logic.Function.Basic

namespace Ufp.Lib.Drivers

set_option autoImplicit false

/-! ## The code -/

/-- `struct pci_id`. -/
structure PciId where
  vendorId : UInt32
  deviceId : UInt32
  deriving DecidableEq

/-- `struct pci_driver`; an id with `device_id` 0 ends the table. -/
structure PciDriver where
  idTable : List PciId

def PciDriver.ids (driver : PciDriver) : List PciId := driver.idTable.takeWhile fun id => id.deviceId ≠ 0

/-- `struct pci_entry`; `driver` is the library whose `init` and `destroy` it has. -/
structure PciEntry where
  id : PciId
  driver : Nat
  deriving DecidableEq

/-- The lists, how often each library is open, and `malloc`: what it answers, how often it was
called, and how many blocks are out. -/
structure Registry where
  pciEntries : List PciEntry
  dylibs : List Nat
  opened : Nat → Nat
  answer : Nat → Bool
  calls : Nat
  blocks : Int

def Registry.malloc (reg : Registry) : Bool × Registry :=
  if reg.answer reg.calls then (true, { reg with calls := reg.calls + 1, blocks := reg.blocks + 1 })
  else (false, { reg with calls := reg.calls + 1 })

def Registry.free (reg : Registry) : Registry := { reg with blocks := reg.blocks - 1 }

/-- The search for an id. -/
def Registry.find (reg : Registry) (target : PciId) : Option PciEntry :=
  reg.pciEntries.find? fun entry => entry.id = target

/-- `ufp_dev_register_device`. -/
def ufpDevRegisterDevice (driver : Nat) (target : PciId) (reg : Registry) : Bool × Registry :=
  match reg.find target with
  | some _ => (false, reg)
  | none =>
      match reg.malloc with
      | (false, reg) => (false, reg)
      | (true, reg) => (true, { reg with pciEntries := reg.pciEntries ++ [⟨target, driver⟩] })

/-- `ufp_dev_unregister_device`. -/
def ufpDevUnregisterDevice (target : PciId) (reg : Registry) : Registry :=
  match reg.find target with
  | none => reg
  | some entry => Registry.free { reg with pciEntries := reg.pciEntries.erase entry }

/-- The loop of `ufp_dev_register`, with what `registered` counts. -/
def registerLoop (driver : Nat) : List PciId → Nat → Registry → Bool × Nat × Registry
  | [], registered, reg => (true, registered, reg)
  | id :: ids, registered, reg =>
      match ufpDevRegisterDevice driver id reg with
      | (true, reg) => registerLoop driver ids (registered + 1) reg
      | (false, reg) => (false, registered, reg)

/-- The loops over `ufp_dev_unregister_device`. -/
def unregisterLoop : List PciId → Registry → Registry
  | [], reg => reg
  | id :: ids, reg => unregisterLoop ids (ufpDevUnregisterDevice id reg)

/-- `ufp_dev_register`, called by library `lib`. -/
def ufpDevRegister (lib : Nat) (driver : PciDriver) (reg : Registry) : Bool × Registry :=
  match registerLoop lib driver.ids 0 reg with
  | (true, _, reg) => (true, reg)
  | (false, registered, reg) => (false, unregisterLoop (driver.ids.take registered) reg)

/-- `ufp_dev_unregister`. -/
def ufpDevUnregister (driver : PciDriver) (reg : Registry) : Registry := unregisterLoop driver.ids reg

/-- `ufp_dev_init`: the library whose `init` is called, and whether 0 is returned; `probe` is
what that `init` returns. -/
def ufpDevInit (probe : Nat → Bool) (dev : PciId) (reg : Registry) : Option Nat × Bool :=
  match reg.find dev with
  | none => (none, false)
  | some entry => (some entry.driver, probe entry.driver)

/-- `ufp_dev_destroy`: the library whose `destroy` is called, and whether 0 is returned. -/
def ufpDevDestroy (dev : PciId) (reg : Registry) : Option Nat × Bool :=
  match reg.find dev with
  | none => (none, false)
  | some entry => (some entry.driver, true)

section Load

variable (drivers : Nat → PciDriver)

/-- A library is open so often. -/
def Registry.turn (reg : Registry) (lib n : Nat) : Registry :=
  { reg with opened := Function.update reg.opened lib n }

/-- `dlopen` of a library that can be opened, with its constructor. -/
def dlopen (lib : Nat) (reg : Registry) : Registry :=
  let after := reg.turn lib (reg.opened lib + 1)
  if reg.opened lib = 0 then (ufpDevRegister lib (drivers lib) after).2 else after

/-- `dlclose`, with the destructor of the library. -/
def dlclose (lib : Nat) (reg : Registry) : Registry :=
  let after := reg.turn lib (reg.opened lib - 1)
  if reg.opened lib = 1 then ufpDevUnregister (drivers lib) after else after

/-- `strrchr`. -/
def strrchr (c : Char) : List Char → Option (List Char)
  | [] => none
  | x :: str => (strrchr c str).or (if x = c then some (x :: str) else none)

/-- A directory entry, with the library that `dlopen` finds under its name, if any. -/
structure Dirent where
  name : List Char
  lib : Option Nat

/-- `ext && !strcmp(ext, ".so")`. -/
def Dirent.isLib (entry : Dirent) : Bool := strrchr '.' entry.name = some ['.', 's', 'o']

/-- The loop of `ufp_dev_load_lib`: whether it came to the end of the directory. -/
def loadLoop : List Dirent → Registry → Bool × Registry
  | [], reg => (true, reg)
  | entry :: dir, reg =>
      if entry.isLib then
        match reg.malloc with
        | (false, reg) => (false, reg)
        | (true, reg) =>
            match entry.lib with
            | none => (false, reg.free)
            | some lib =>
                let reg := dlopen drivers lib reg
                loadLoop dir { reg with dylibs := reg.dylibs ++ [lib] }
      else loadLoop dir reg

/-- The loop of `ufp_dev_unload_lib`, with what is left of the list. -/
def unloadLoop : List Nat → Registry → Registry
  | [], reg => reg
  | lib :: dylibs, reg => unloadLoop dylibs (Registry.free { dlclose drivers lib reg with dylibs })

/-- `ufp_dev_unload_lib`. -/
def ufpDevUnloadLib (reg : Registry) : Registry := unloadLoop drivers reg.dylibs reg

/-- `ufp_dev_load_lib`; there is no directory if it cannot be opened. -/
def ufpDevLoadLib (dir : Option (List Dirent)) (reg : Registry) : Bool × Registry :=
  match dir with
  | none => (false, reg)
  | some dir =>
      match loadLoop drivers dir reg with
      | (true, reg) => (true, reg)
      | (false, reg) => (false, ufpDevUnloadLib drivers reg)

end Load

/-! ## Registering and unregistering -/

def Registry.ids (reg : Registry) : List PciId := reg.pciEntries.map PciEntry.id

/-- No `malloc` was refused. -/
def Registry.Granted (reg : Registry) : Prop := ∀ k < reg.calls, reg.answer k = true

/-- What registering leaves alone, and that it allocates as many blocks as it adds entries. -/
structure Keeps (reg reg' : Registry) : Prop where
  dylibs : reg'.dylibs = reg.dylibs
  opened : reg'.opened = reg.opened
  granted : reg'.Granted → reg.Granted
  blocks : reg'.blocks - reg'.pciEntries.length = reg.blocks - reg.pciEntries.length

section Register

variable {reg reg' reg'' : Registry} {lib : Nat} {target : PciId}

theorem Keeps.refl (reg : Registry) : Keeps reg reg := ⟨rfl, rfl, fun granted => granted, rfl⟩

theorem Keeps.trans (first : Keeps reg reg') (second : Keeps reg' reg'') : Keeps reg reg'' :=
  ⟨second.dylibs.trans first.dylibs, second.opened.trans first.opened,
    fun granted => first.granted (second.granted granted), second.blocks.trans first.blocks⟩

theorem find_some {entry : PciEntry} (found : reg.find target = some entry) :
    entry ∈ reg.pciEntries ∧ entry.id = target := by
  have eq := List.find?_some found
  exact ⟨List.mem_of_find?_eq_some found, of_decide_eq_true eq⟩

theorem find_none_iff : reg.find target = none ↔ target ∉ reg.ids := by
  rw [Registry.find, List.find?_eq_none, Registry.ids, List.mem_map]
  constructor
  · rintro absent ⟨entry, inside, eq⟩
    exact absent entry inside (decide_eq_true eq)
  · intro absent entry inside eq
    exact absent ⟨entry, inside, of_decide_eq_true eq⟩

/-- `malloc` is refused, or one more block is out. -/
theorem malloc_cases (reg : Registry) :
    (reg.malloc = (false, { reg with calls := reg.calls + 1 }) ∧
        ¬ Registry.Granted { reg with calls := reg.calls + 1 }) ∨
      reg.malloc = (true, { reg with calls := reg.calls + 1, blocks := reg.blocks + 1 }) := by
  unfold Registry.malloc
  split
  · exact .inr rfl
  · rename_i refused
    exact .inl ⟨rfl, fun granted => refused (granted reg.calls (Nat.lt_succ_self _))⟩

theorem Registry.Granted.earlier (granted : Registry.Granted { reg with calls := reg.calls + 1 }) : reg.Granted :=
  fun k before => granted k (Nat.lt_succ_of_lt before)

/-- One id is registered for the library, unless it is taken or `malloc` refuses. -/
theorem ufpDevRegisterDevice_cases (lib : Nat) (target : PciId) (reg : Registry) :
    ∃ done reg', ufpDevRegisterDevice lib target reg = (done, reg') ∧ Keeps reg reg' ∧
      if done then target ∉ reg.ids ∧ reg'.pciEntries = reg.pciEntries ++ [⟨target, lib⟩]
      else reg'.pciEntries = reg.pciEntries ∧ (target ∈ reg.ids ∨ ¬ reg'.Granted) := by
  unfold ufpDevRegisterDevice
  cases search : reg.find target with
  | some entry =>
      refine ⟨false, reg, rfl, .refl reg, rfl, .inl ?_⟩
      by_contra absent
      rw [find_none_iff.mpr absent] at search
      cases search
  | none =>
      have absent := find_none_iff.mp search
      rcases malloc_cases reg with ⟨refused, denied⟩ | granted
      · rw [refused]
        exact ⟨false, _, rfl, ⟨rfl, rfl, fun all => all.earlier, rfl⟩, rfl, .inr denied⟩
      · rw [granted]
        refine ⟨true, _, rfl, ⟨rfl, rfl, fun all => Registry.Granted.earlier all, ?_⟩, absent, rfl⟩
        show reg.blocks + 1 - ((reg.pciEntries ++ [_]).length : Int) = _
        rw [List.length_append, List.length_singleton]
        omega

/-- The ids of a table are registered one after the other, up to one that is taken or one for
which `malloc` refuses. -/
theorem registerLoop_cases (lib : Nat) (ids : List PciId) (registered : Nat) (reg : Registry) :
    ∃ done reg' new, registerLoop lib ids registered reg = (done, registered + new.length, reg') ∧ Keeps reg reg' ∧
      reg'.pciEntries = reg.pciEntries ++ new.map (⟨·, lib⟩) ∧ new <+: ids ∧ (reg.ids.Nodup → reg'.ids.Nodup) ∧
      (done = true → new = ids) ∧ (done = false → ¬ reg'.Granted ∨ ¬ (reg.ids ++ ids).Nodup) := by
  induction ids generalizing registered reg with
  | nil =>
      exact ⟨true, reg, [], rfl, .refl reg, (List.append_nil _).symm, List.prefix_rfl, fun distinct => distinct,
        fun _ => rfl, nofun⟩
  | cons id ids ih =>
      obtain ⟨done, reg', eq, keeps, result⟩ := ufpDevRegisterDevice_cases lib id reg
      rw [registerLoop, eq]
      cases done with
      | false =>
          obtain ⟨same, why⟩ := result
          refine ⟨false, reg', [], rfl, keeps, ?_, List.nil_prefix, ?_, nofun, fun _ => ?_⟩
          · rw [same, List.map_nil, List.append_nil]
          · rw [Registry.ids, Registry.ids, same]
            exact fun distinct => distinct
          · refine why.symm.imp_right fun known nodup => ?_
            exact (List.nodup_append.mp nodup).2.2 id known id List.mem_cons_self rfl
      | true =>
          obtain ⟨absent, added⟩ := result
          have known : reg'.ids = reg.ids ++ [id] := by
            rw [Registry.ids, added, List.map_append]
            rfl
          obtain ⟨done, reg'', new, eq', keeps', entries, isPrefix, distinct, whole, why⟩ := ih (registered + 1) reg'
          refine ⟨done, reg'', id :: new, ?_, keeps.trans keeps', ?_, (List.prefix_cons_inj id).mpr isPrefix, ?_, ?_, ?_⟩
          · rw [List.length_cons, Nat.add_comm new.length 1, ← Nat.add_assoc]
            exact eq'
          · rw [entries, added, List.append_assoc]
            rfl
          · intro before
            refine distinct ?_
            rw [known]
            exact List.nodup_append_comm.mp (List.nodup_cons.mpr ⟨absent, before⟩)
          · exact fun isDone => congrArg _ (whole isDone)
          · intro failed
            have twice := why failed
            rwa [known, List.append_assoc] at twice

/-- An id is taken out of the list, if it is there. -/
theorem ufpDevUnregisterDevice_eq (distinct : reg.ids.Nodup) (target : PciId) :
    Keeps reg (ufpDevUnregisterDevice target reg) ∧
      (ufpDevUnregisterDevice target reg).pciEntries = reg.pciEntries.filter fun entry => entry.id ≠ target := by
  unfold ufpDevUnregisterDevice
  cases search : reg.find target with
  | none =>
      refine ⟨.refl reg, (List.filter_eq_self.mpr fun entry inside => ?_).symm⟩
      exact decide_eq_true fun eq => find_none_iff.mp search (List.mem_map.mpr ⟨entry, inside, eq⟩)
  | some entry =>
      obtain ⟨inside, rfl⟩ := find_some search
      have once : reg.pciEntries.erase entry = reg.pciEntries.filter fun other => other.id ≠ entry.id := by
        rw [(List.Nodup.of_map _ distinct).erase_eq_filter]
        refine List.filter_congr fun other among => Bool.eq_iff_iff.mpr ?_
        rw [bne_iff_ne, decide_eq_true_iff]
        exact not_congr ⟨congrArg _, List.inj_on_of_nodup_map distinct among inside⟩
      refine ⟨⟨rfl, rfl, fun granted => granted, ?_⟩, once⟩
      have size := List.length_erase_of_mem inside
      have positive := List.length_pos_of_mem inside
      show reg.blocks - 1 - ((reg.pciEntries.erase entry).length : Int) = _
      omega

theorem unregisterLoop_eq (distinct : reg.ids.Nodup) (ids : List PciId) :
    Keeps reg (unregisterLoop ids reg) ∧
      (unregisterLoop ids reg).pciEntries = reg.pciEntries.filter fun entry => entry.id ∉ ids := by
  induction ids generalizing reg with
  | nil => exact ⟨.refl reg, (List.filter_eq_self.mpr fun _ _ => rfl).symm⟩
  | cons id ids ih =>
      obtain ⟨keeps, left⟩ := ufpDevUnregisterDevice_eq distinct id
      have fewer : (ufpDevUnregisterDevice id reg).ids.Nodup := by
        rw [Registry.ids, left]
        exact distinct.sublist (List.filter_sublist.map _)
      obtain ⟨keeps', left'⟩ := ih fewer
      refine ⟨keeps.trans keeps', ?_⟩
      rw [unregisterLoop, left', left, List.filter_filter]
      refine List.filter_congr fun entry _ => ?_
      simp [Bool.and_comm]

/-- **All ids or none.** `ufp_dev_register` registers all ids of a library's table, or, if one
of them is taken or `malloc` refuses, leaves the list as it was. -/
theorem ufpDevRegister_atomic (distinct : reg.ids.Nodup) (lib : Nat) (driver : PciDriver) :
    ∃ done reg', ufpDevRegister lib driver reg = (done, reg') ∧ Keeps reg reg' ∧ reg'.ids.Nodup ∧
      if done then reg'.pciEntries = reg.pciEntries ++ driver.ids.map (⟨·, lib⟩)
      else reg'.pciEntries = reg.pciEntries ∧ (¬ reg'.Granted ∨ ¬ (reg.ids ++ driver.ids).Nodup) := by
  obtain ⟨done, reg', new, eq, keeps, added, isPrefix, still, whole, why⟩ := registerLoop_cases lib driver.ids 0 reg
  unfold ufpDevRegister
  rw [eq]
  cases done with
  | true => exact ⟨true, reg', rfl, keeps, still distinct, whole rfl ▸ added⟩
  | false =>
      obtain ⟨keeps', left⟩ := unregisterLoop_eq (still distinct) new
      -- what is taken back is what was registered, since no id is there twice
      have undone : reg'.pciEntries.filter (fun entry => entry.id ∉ new) = reg.pciEntries := by
        have apart := still distinct
        rw [Registry.ids, added, List.map_append] at apart
        rw [added, List.filter_append, List.filter_eq_self.mpr, List.filter_eq_nil_iff.mpr, List.append_nil]
        · simp
        · intro entry inside
          refine decide_eq_true fun known => ?_
          have again : entry.id ∈ (new.map (PciEntry.mk · lib)).map PciEntry.id := by simpa using known
          exact (List.nodup_append.mp apart).2.2 _ (List.mem_map_of_mem inside) _ again rfl
      rw [undone] at left
      have taken : driver.ids.take (0 + new.length) = new := by
        rw [Nat.zero_add]
        exact (List.prefix_iff_eq_take.mp isPrefix).symm
      refine ⟨false, unregisterLoop new reg', congrArg (fun ids => (false, unregisterLoop ids reg')) taken,
        keeps.trans keeps', ?_, left, (why rfl).imp_left fun refused granted => refused (keeps'.granted granted)⟩
      rw [Registry.ids, left]
      exact distinct

end Register

/-! ## Opening and closing libraries -/

/-- No device id is in two tables, or twice in one. -/
structure Apart (drivers : Nat → PciDriver) : Prop where
  once : ∀ lib, (drivers lib).ids.Nodup
  same : ∀ lib lib' id, id ∈ (drivers lib).ids → id ∈ (drivers lib').ids → lib = lib'

/-- No id is registered twice, and every entry belongs to a library that is open and is one of
its ids. If the tables are apart and no `malloc` was refused, all ids of the open libraries
are registered. -/
structure Stable (drivers : Nat → PciDriver) (reg : Registry) : Prop where
  distinct : reg.ids.Nodup
  owned : ∀ entry ∈ reg.pciEntries, 0 < reg.opened entry.driver ∧ entry.id ∈ (drivers entry.driver).ids
  served : Apart drivers → reg.Granted → ∀ lib, 0 < reg.opened lib → ∀ id ∈ (drivers lib).ids,
    ⟨id, lib⟩ ∈ reg.pciEntries

section Turn

variable {drivers : Nat → PciDriver} {reg reg' : Registry} {lib n : Nat}

theorem Keeps.self (keeps : Keeps (reg.turn lib n) reg') : reg'.opened lib = n := by
  rw [keeps.opened]
  exact Function.update_self ..

theorem Keeps.other (keeps : Keeps (reg.turn lib n) reg') {other : Nat} (differs : other ≠ lib) :
    reg'.opened other = reg.opened other := by
  rw [keeps.opened]
  exact Function.update_of_ne differs ..

/-- A library that stays open or closed. -/
theorem Stable.turn (stable : Stable drivers reg) (same : 0 < n ↔ 0 < reg.opened lib) :
    Stable drivers (reg.turn lib n) := by
  have isOpen : ∀ other, 0 < (reg.turn lib n).opened other ↔ 0 < reg.opened other := by
    intro other
    by_cases here : other = lib
    · rw [here, (Keeps.refl (reg.turn lib n)).self, same]
    · rw [(Keeps.refl (reg.turn lib n)).other here]
  exact ⟨stable.distinct, fun entry inside => (stable.owned entry inside).imp_left (isOpen _).mpr,
    fun apart granted other now => stable.served apart granted other ((isOpen _).mp now)⟩

/-- A library is opened: the first time its constructor registers its ids. -/
theorem Stable.dlopen (stable : Stable drivers reg) (lib : Nat) :
    Stable drivers (dlopen drivers lib reg) ∧ Keeps (reg.turn lib (reg.opened lib + 1)) (dlopen drivers lib reg) := by
  unfold Drivers.dlopen
  by_cases first : reg.opened lib = 0
  · have distinct : (reg.turn lib (reg.opened lib + 1)).ids.Nodup := stable.distinct
    obtain ⟨done, reg', eq, keeps, distinct', result⟩ := ufpDevRegister_atomic distinct lib (drivers lib)
    rw [if_pos first, eq]
    have still : ∀ entry ∈ reg.pciEntries, 0 < reg'.opened entry.driver ∧ entry.id ∈ (drivers entry.driver).ids := by
      intro entry inside
      obtain ⟨isOpen, own⟩ := stable.owned entry inside
      have differs : entry.driver ≠ lib := fun same => absurd isOpen (by rw [same, first]; decide)
      exact ⟨by rwa [keeps.other differs], own⟩
    cases done with
    | false =>
        obtain ⟨same, why⟩ := result
        refine ⟨⟨distinct', same ▸ still, fun apart granted => ?_⟩, keeps⟩
        refine (why.elim (· granted) fun twice => twice ?_).elim
        -- a library that was closed has no entries, so its ids are free
        refine List.nodup_append.mpr ⟨distinct, apart.once lib, ?_⟩
        rintro id known _ own rfl
        obtain ⟨entry, inside, rfl⟩ := List.mem_map.mp known
        obtain ⟨isOpen, theirs⟩ := stable.owned entry inside
        rw [apart.same _ _ _ theirs own, first] at isOpen
        exact Nat.lt_irrefl 0 isOpen
    | true =>
        have added : reg'.pciEntries = reg.pciEntries ++ (drivers lib).ids.map (⟨·, lib⟩) := result
        refine ⟨⟨distinct', fun entry inside => ?_, fun apart granted other isOpen id own => ?_⟩, keeps⟩
        · rw [added] at inside
          rcases List.mem_append.mp inside with old | new
          · exact still entry old
          · obtain ⟨id, own, rfl⟩ := List.mem_map.mp new
            exact ⟨by rw [keeps.self]; exact Nat.succ_pos _, own⟩
        · rw [added]
          by_cases same : other = lib
          · subst same
            exact List.mem_append_right _ (List.mem_map_of_mem own)
          · rw [keeps.other same] at isOpen
            exact List.mem_append_left _ (stable.served apart (keeps.granted granted) other isOpen id own)
  · rw [if_neg first]
    exact ⟨stable.turn (by omega), .refl _⟩

/-- A library is closed: the last time its destructor takes its ids out of the list, and with
them all of its entries. -/
theorem Stable.dlclose (stable : Stable drivers reg) (lib : Nat) :
    Stable drivers (dlclose drivers lib reg) ∧ Keeps (reg.turn lib (reg.opened lib - 1)) (dlclose drivers lib reg) := by
  unfold Drivers.dlclose
  by_cases last : reg.opened lib = 1
  · have distinct : (reg.turn lib (reg.opened lib - 1)).ids.Nodup := stable.distinct
    obtain ⟨keeps, left⟩ := unregisterLoop_eq distinct (drivers lib).ids
    rw [if_pos last, ufpDevUnregister]
    generalize unregisterLoop (drivers lib).ids (reg.turn lib (reg.opened lib - 1)) = reg' at *
    have inside : ∀ {entry}, entry ∈ reg'.pciEntries ↔ entry ∈ reg.pciEntries ∧ entry.id ∉ (drivers lib).ids := by
      intro entry
      rw [left, List.mem_filter, decide_eq_true_iff]
      rfl
    refine ⟨⟨?_, fun entry among => ?_, fun apart granted other isOpen id own => ?_⟩, keeps⟩
    · rw [Registry.ids, left]
      exact distinct.sublist (List.filter_sublist.map _)
    · obtain ⟨old, foreign⟩ := inside.mp among
      obtain ⟨isOpen, own⟩ := stable.owned entry old
      have differs : entry.driver ≠ lib := fun same => foreign (same ▸ own)
      exact ⟨by rwa [keeps.other differs], own⟩
    · have differs : other ≠ lib := by
        rintro rfl
        rw [keeps.self, last] at isOpen
        exact Nat.lt_irrefl 0 isOpen
      rw [keeps.other differs] at isOpen
      refine inside.mpr ⟨stable.served apart (keeps.granted granted) other isOpen id own, fun theirs => ?_⟩
      exact differs (apart.same _ _ _ own theirs)
  · rw [if_neg last]
    exact ⟨stable.turn (by omega), .refl _⟩

end Turn

/-! ## Loading and unloading -/

/-- Between two calls: the list `dylibs` has every handle, and every block is in a list. -/
structure Settled (drivers : Nat → PciDriver) (reg : Registry) : Prop extends Stable drivers reg where
  counts : ∀ lib, reg.opened lib = reg.dylibs.count lib
  blocks : reg.blocks = reg.pciEntries.length + reg.dylibs.length

/-- Nothing is left: both lists are empty, no block is out and no library is open. -/
structure Bare (reg : Registry) : Prop where
  pciEntries : reg.pciEntries = []
  dylibs : reg.dylibs = []
  blocks : reg.blocks = 0
  closed : ∀ lib, reg.opened lib = 0

/-- Every library of a directory is open. -/
def AllOpen (dir : List Dirent) (reg : Registry) : Prop :=
  ∀ entry ∈ dir, entry.isLib = true → ∃ lib, entry.lib = some lib ∧ 0 < reg.opened lib

section Load

variable {drivers : Nat → PciDriver} {reg : Registry}

theorem Bare.settled (drivers : Nat → PciDriver) (bare : Bare reg) : Settled drivers reg where
  distinct := by simp [Registry.ids, bare.pciEntries]
  owned := by simp [bare.pciEntries]
  served := fun _ _ lib isOpen => absurd (bare.closed lib) (Nat.ne_of_gt isOpen)
  counts := fun lib => by rw [bare.closed, bare.dylibs, List.count_nil]
  blocks := by simp [bare.blocks, bare.pciEntries, bare.dylibs]

/-- A library is opened, and its handle comes to the end of the list. -/
theorem Settled.enlist (settled : Settled drivers reg) (lib : Nat) :
    let after := Drivers.dlopen drivers lib { reg with calls := reg.calls + 1, blocks := reg.blocks + 1 }
    Settled drivers { after with dylibs := after.dylibs ++ [lib] } ∧
      ∀ other, reg.opened other + (if other = lib then 1 else 0) = after.opened other := by
  intro after
  have held : Stable drivers { reg with calls := reg.calls + 1, blocks := reg.blocks + 1 } :=
    ⟨settled.distinct, settled.owned, fun apart granted => settled.served apart granted.earlier⟩
  obtain ⟨stable, keeps⟩ := held.dlopen lib
  have once : ∀ other, reg.opened other + (if other = lib then 1 else 0) = after.opened other := by
    intro other
    by_cases same : other = lib
    · subst same
      rw [if_pos rfl]
      exact keeps.self.symm
    · rw [if_neg same]
      exact (keeps.other same).symm
  have same : after.dylibs = reg.dylibs := keeps.dylibs
  refine ⟨⟨⟨stable.distinct, stable.owned, stable.served⟩, fun other => ?_, ?_⟩, once⟩
  · show after.opened other = (after.dylibs ++ [lib]).count other
    rw [← once, settled.counts, same, List.count_append, List.count_singleton]
    simp only [beq_iff_eq, @eq_comm _ lib]
  · show after.blocks = after.pciEntries.length + ((after.dylibs ++ [lib]).length : Int)
    have balance : after.blocks - after.pciEntries.length = reg.blocks + 1 - reg.pciEntries.length := keeps.blocks
    have before := settled.blocks
    rw [List.length_append, List.length_singleton, same]
    omega

/-- The loop over a directory: it comes to the end, and then every library in it is open, or it
stops at one that cannot be opened or for which `malloc` refuses. -/
theorem Settled.loadLoop (settled : Settled drivers reg) (dir : List Dirent) :
    ∃ done reg', loadLoop drivers dir reg = (done, reg') ∧ Settled drivers reg' ∧
      (∀ lib, reg.opened lib ≤ reg'.opened lib) ∧ (done = true → AllOpen dir reg') := by
  induction dir generalizing reg with
  | nil => exact ⟨true, reg, rfl, settled, fun _ => Nat.le_refl _, nofun⟩
  | cons entry dir ih =>
      rw [Drivers.loadLoop]
      cases isLib : entry.isLib with
      | false =>
          obtain ⟨done, reg', eq, settled', more, all⟩ := ih settled
          refine ⟨done, reg', eq, settled', more, fun isDone other inside so => ?_⟩
          rcases List.mem_cons.mp inside with rfl | later
          · exact absurd (so.symm.trans isLib) nofun
          · exact all isDone other later so
      | true =>
          rw [if_pos rfl]
          rcases malloc_cases reg with ⟨refused, denied⟩ | granted
          · rw [refused]
            refine ⟨false, _, rfl, ⟨⟨settled.distinct, settled.owned, fun _ all => absurd all denied⟩, settled.counts,
              settled.blocks⟩, fun _ => Nat.le_refl _, nofun⟩
          · rw [granted]
            cases found : entry.lib with
            | none =>
                refine ⟨false, _, rfl, ⟨⟨settled.distinct, settled.owned, fun apart all =>
                  settled.served apart (Registry.Granted.earlier all)⟩, settled.counts, ?_⟩, fun _ => Nat.le_refl _, nofun⟩
                exact (Int.add_sub_cancel reg.blocks 1).trans settled.blocks
            | some lib =>
                obtain ⟨settled₁, once⟩ := settled.enlist lib
                obtain ⟨done, reg', eq, settled', more, all⟩ := ih settled₁
                refine ⟨done, reg', eq, settled', fun other => ?_, fun isDone other inside so => ?_⟩
                · exact Nat.le_trans (Nat.le_trans (Nat.le_add_right ..) (Nat.le_of_eq (once other))) (more other)
                · rcases List.mem_cons.mp inside with rfl | later
                  · have here := once lib
                    rw [if_pos rfl] at here
                    exact ⟨lib, found, Nat.lt_of_lt_of_le (Nat.succ_pos _) (here ▸ more lib)⟩
                  · exact all isDone other later so

/-- The loop over `dylibs` closes every library; with the last handle of a library its entries
are gone. -/
theorem Settled.unloadLoop {dylibs : List Nat} (settled : Settled drivers reg) (list : reg.dylibs = dylibs) :
    Bare (unloadLoop drivers dylibs reg) := by
  induction dylibs generalizing reg with
  | nil =>
      have closed : ∀ lib, reg.opened lib = 0 := fun lib => by rw [settled.counts, list, List.count_nil]
      have none : reg.pciEntries = [] := List.eq_nil_iff_forall_not_mem.mpr fun entry inside =>
        absurd (closed _) (Nat.ne_of_gt (settled.owned entry inside).1)
      refine ⟨none, list, ?_, closed⟩
      show reg.blocks = 0
      rw [settled.blocks, none, list]
      rfl
  | cons lib dylibs ih =>
      obtain ⟨stable, keeps⟩ := settled.toStable.dlclose lib
      rw [Drivers.unloadLoop]
      generalize Drivers.dlclose drivers lib reg = reg' at stable keeps
      refine ih ⟨⟨stable.distinct, stable.owned, stable.served⟩, fun other => ?_, ?_⟩ rfl
      · show reg'.opened other = dylibs.count other
        have before := settled.counts other
        rw [list, List.count_cons] at before
        by_cases same : other = lib
        · subst same
          rw [keeps.self, before]
          simp
        · rw [keeps.other same, before, if_neg (by simpa using Ne.symm same), Nat.add_zero]
      · have balance : reg'.blocks - reg'.pciEntries.length = reg.blocks - reg.pciEntries.length := keeps.blocks
        have before := settled.blocks
        rw [list, List.length_cons] at before
        show reg'.blocks - 1 = reg'.pciEntries.length + (dylibs.length : Int)
        omega

theorem Settled.unload (settled : Settled drivers reg) : Bare (ufpDevUnloadLib drivers reg) :=
  settled.unloadLoop rfl

/-- A directory is loaded, or nothing is left open. -/
theorem Settled.load (settled : Settled drivers reg) (dir : List Dirent) :
    ∃ done reg', ufpDevLoadLib drivers (some dir) reg = (done, reg') ∧ Settled drivers reg' ∧
      if done then AllOpen dir reg' else Bare reg' := by
  obtain ⟨done, reg', eq, settled', -, all⟩ := settled.loadLoop dir
  simp only [ufpDevLoadLib, eq]
  cases done with
  | true => exact ⟨true, reg', rfl, settled', all rfl⟩
  | false => exact ⟨false, _, rfl, settled'.unload.settled drivers, settled'.unload⟩

end Load

/-! ## Whole runs -/

/-- A call of the library's loader. -/
inductive LoadCall where
  | loadLib (dir : Option (List Dirent))
  | unloadLib

def Registry.call (drivers : Nat → PciDriver) (reg : Registry) : LoadCall → Registry
  | .loadLib dir => (ufpDevLoadLib drivers dir reg).2
  | .unloadLib => ufpDevUnloadLib drivers reg

/-- `LIST_HEAD(dylibs)` and `LIST_HEAD(pci_entries)`; `malloc` will answer in any way. -/
def Registry.init (answer : Nat → Bool) : Registry where
  pciEntries := []
  dylibs := []
  opened _ := 0
  answer
  calls := 0
  blocks := 0

theorem Settled.call {drivers : Nat → PciDriver} {reg : Registry} (settled : Settled drivers reg) (call : LoadCall) :
    Settled drivers (reg.call drivers call) := by
  rcases call with (_ | dir) | _
  · exact settled
  · obtain ⟨done, reg', eq, settled', -⟩ := settled.load dir
    rw [Registry.call, eq]
    exact settled'
  · exact settled.unload.settled drivers

theorem Settled.run {drivers : Nat → PciDriver} {reg : Registry} (settled : Settled drivers reg)
    (calls : List LoadCall) : Settled drivers (calls.foldl (Registry.call drivers) reg) := by
  induction calls generalizing reg with
  | nil => exact settled
  | cons call calls ih => exact ih (settled.call call)

/-- Library 0 drives one device and library 1 two, one of which is that of library 0. -/
def sampleDrivers : Nat → PciDriver
  | 0 => ⟨[⟨0x8086, 0x1572⟩, ⟨0, 0⟩]⟩
  | _ => ⟨[⟨0x8086, 0x1583⟩, ⟨0x8086, 0x1572⟩, ⟨0, 0⟩]⟩

/-- The table of library 1 is refused as a whole. -/
example :
    let dir := [⟨"a.so".toList, some 0⟩, ⟨"README".toList, none⟩, ⟨"b.so".toList, some 1⟩]
    let reg := Registry.call sampleDrivers (.init fun _ => true) (.loadLib (some dir))
    ufpDevInit (fun _ => true) ⟨0x8086, 0x1572⟩ reg = (some 0, true) ∧
      ufpDevInit (fun _ => true) ⟨0x8086, 0x1583⟩ reg = (none, false) := by
  decide +kernel

end Ufp.Lib.Drivers
