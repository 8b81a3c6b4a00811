import Jaeos.Support.Types
import Jaeos.Lib.LinkedList
import Mathlib.Data.List.FinRange

/-!
# The active delay list (`phase3/adl.c`)

The functions of `adl.c` on their static data, a table of `k` nodes with two lists
of them, in a state monad over `Option`. `AdlShape a l fs` says that `l` is the active
list and `fs` the free list; each function has one lemma that says what it does to them.
A new node goes behind the head whatever its wake time is, so only the rest of the
list is searched for its place.
-/

namespace Jaeos

open LinkedList

variable {k : ℕ}

/-- The static data of `adl.c`. -/
structure Adl (k : ℕ) where
  /-- `d_next` -/
  dNext : Fin k → Option (Fin k)
  /-- `d_wakeTime` -/
  dWakeTime : Fin k → Word
  /-- `d_procID` -/
  dProcID : Fin k → ℤ
  /-- `delaydFree_h` -/
  delaydFreeH : Option (Fin k)
  /-- `activeDelaydList_h` -/
  activeDelaydListH : Option (Fin k)

/-- The monad of `adl.c`. -/
abbrev AdlM (k : ℕ) : Type → Type := StateT (Adl k) Option

/-- `delayd->d_next = v` -/
def setDNext (d : Fin k) (v : Option (Fin k)) : AdlM k Unit :=
  modify fun a => { a with dNext := Function.update a.dNext d v }

/-- `delayd->d_wakeTime = v` -/
def setDWakeTime (d : Fin k) (v : Word) : AdlM k Unit :=
  modify fun a => { a with dWakeTime := Function.update a.dWakeTime d v }

/-- `delayd->d_procID = v` -/
def setDProcID (d : Fin k) (v : ℤ) : AdlM k Unit :=
  modify fun a => { a with dProcID := Function.update a.dProcID d v }

/-- `findPreviousDelayd` -/
def findPreviousDelayd (wakeTime : Word) : AdlM k (Fin k) := do
  let a ← get
  let h ← a.activeDelaydListH
  findPrev a.dNext (fun d => (a.dWakeTime d).toInt < wakeTime.toInt) k h

/-- `freeDelayd` -/
def freeDelayd (delayd : Fin k) : AdlM k Unit := do
  match (← get).delaydFreeH with
  | none =>
    modify fun a => { a with delaydFreeH := some delayd }
    setDNext delayd none
  | some h =>
    setDNext delayd (some h)
    modify fun a => { a with delaydFreeH := some delayd }

/-- `allocDelayd` -/
def allocDelayd : AdlM k (Option (Fin k)) := do
  match (← get).delaydFreeH with
  | none => return none
  | some retDelayd =>
    match (← get).dNext retDelayd with
    | none => modify fun a => { a with delaydFreeH := none }
    | some h =>
      modify fun a => { a with delaydFreeH := some h }
      setDNext retDelayd none
    setDNext retDelayd none
    setDWakeTime retDelayd failed
    setDProcID retDelayd (-1)
    return some retDelayd

/-- `initADL` -/
def initADL : AdlM k Unit := do
  modify fun a => { a with delaydFreeH := none, activeDelaydListH := none }
  (List.finRange k).forM freeDelayd

/-- `headDelaydTime` -/
def headDelaydTime : AdlM k Word := do
  match (← get).activeDelaydListH with
  | none => return failed
  | some h => return (← get).dWakeTime h

/-- `insertDelay` -/
def insertDelay (wakeTime : Word) (procID : ℤ) : AdlM k Bool := do
  match ← allocDelayd with
  | none => return false
  | some newDelay =>
    setDWakeTime newDelay wakeTime
    setDProcID newDelay procID
    match (← get).activeDelaydListH with
    | none =>
      modify fun a => { a with activeDelaydListH := some newDelay }
      setDNext newDelay none
    | some _ =>
      let currentDelay ← findPreviousDelayd wakeTime
      setDNext newDelay ((← get).dNext currentDelay)
      setDNext currentDelay (some newDelay)
    return true

/-- `removeDelay` -/
def removeDelay : AdlM k ℤ := do
  match (← get).activeDelaydListH with
  | none => return -1
  | some tempDelay =>
    modify fun a => { a with activeDelaydListH := a.dNext tempDelay }
    let retProcID := (← get).dProcID tempDelay
    setDNext tempDelay none
    freeDelayd tempDelay
    return retProcID

/-- What `headDelaydTime` reads. -/
def Adl.headTime (a : Adl k) : Word :=
  match a.activeDelaydListH with
  | none => failed
  | some h => a.dWakeTime h

theorem headDelaydTime_run (a : Adl k) : headDelaydTime.run a = some (a.headTime, a) := by
  cases h : a.activeDelaydListH <;> simp [headDelaydTime, Adl.headTime, h]

/-- The active list, as a reader sees it who follows the pointers. -/
def Adl.active (a : Adl k) : List (Fin k) := toList a.dNext (k + 1) a.activeDelaydListH

/-! ## The two lists -/

/-- `l` is the active list and `fs` the free list. -/
structure AdlShape (a : Adl k) (l fs : List (Fin k)) : Prop where
  /-- the active nodes form a list -/
  active : IsList a.dNext a.activeDelaydListH l
  /-- the free nodes form a list -/
  free : IsList a.dNext a.delaydFreeH fs
  /-- each node is in exactly one of them -/
  perm : (l ++ fs).Perm (List.finRange k)

variable {a : Adl k} {l fs : List (Fin k)} {d f : Fin k} {w : Word} {q : ℤ}

/-- Where a new node goes. -/
def place (a : Adl k) (w : Word) (f : Fin k) : List (Fin k) → List (Fin k)
  | [] => [f]
  | h :: t =>
    h :: (t.takeWhile (fun d => (a.dWakeTime d).toInt < w.toInt) ++
      f :: t.dropWhile fun d => (a.dWakeTime d).toInt < w.toInt)

theorem place_perm : (place a w f l).Perm (f :: l) := by
  cases l with
  | nil => rfl
  | cons h t =>
    refine (List.Perm.cons h List.perm_middle).trans ((List.Perm.swap f h _).trans ?_)
    rw [List.takeWhile_append_dropWhile]

@[simp] theorem mem_place : d ∈ place a w f l ↔ d = f ∨ d ∈ l := by
  rw [place_perm.mem_iff, List.mem_cons]

namespace AdlShape

theorem nodup (hs : AdlShape a l fs) : (l ++ fs).Nodup :=
  hs.perm.nodup_iff.mpr (List.nodup_finRange _)

theorem length_add_length (hs : AdlShape a l fs) : l.length + fs.length = k := by
  simpa using hs.perm.length_eq

theorem notMem_of_free (hs : AdlShape a l (f :: fs)) : f ∉ l ∧ f ∉ fs := by
  obtain ⟨-, hfs, hdisj⟩ := List.nodup_append.mp hs.nodup
  exact ⟨fun hm => hdisj f hm f (by simp) rfl, (List.nodup_cons.mp hfs).1⟩

/-- The pointers determine the active list. -/
theorem active_eq (hs : AdlShape a l fs) : a.active = l := by
  refine hs.active.toList_eq ?_
  have := hs.length_add_length
  omega

/-- `allocDelayd` takes the first free node. -/
theorem allocDelayd_run (hs : AdlShape a l (f :: fs)) :
    allocDelayd.run a = some (some f, { a with
      dNext := Function.update a.dNext f none
      dWakeTime := Function.update a.dWakeTime f failed
      dProcID := Function.update a.dProcID f (-1)
      delaydFreeH := fs.head? }) := by
  have hnext : a.dNext f = fs.head? := IsList.start hs.free.2
  cases fs <;> simp [allocDelayd, hs.free.start, hnext, setDNext, setDWakeTime, setDProcID]

/-- `insertDelay` without a free node. -/
theorem insertDelay_full (hs : AdlShape a l []) : (insertDelay w q).run a = some (false, a) := by
  simp [insertDelay, allocDelayd, hs.free.start]

/-- The free list without its first node. -/
theorem free_tail (hs : AdlShape a l (f :: fs)) :
    IsList (Function.update a.dNext f none) fs.head? fs := by
  have hnext : a.dNext f = fs.head? := IsList.start hs.free.2
  exact IsList.update (hnext ▸ hs.free.2) hs.notMem_of_free.2

/-- `insertDelay` takes the first free node and puts it in its place. -/
theorem insertDelay_run (hs : AdlShape a l (f :: fs)) :
    ∃ a', (insertDelay w q).run a = some (true, a') ∧ AdlShape a' (place a w f l) fs ∧
      a'.dWakeTime = Function.update a.dWakeTime f w ∧
      a'.dProcID = Function.update a.dProcID f q := by
  obtain ⟨hfl, hffs⟩ := hs.notMem_of_free
  have hperm : (place a w f l ++ fs).Perm (List.finRange k) :=
    ((place_perm.append_right fs).trans List.perm_middle.symm).trans hs.perm
  cases l with
  | nil =>
    refine ⟨{ a with
      dNext := Function.update a.dNext f none
      dWakeTime := Function.update a.dWakeTime f w
      dProcID := Function.update a.dProcID f q
      delaydFreeH := fs.head?
      activeDelaydListH := some f }, ?_, ⟨⟨rfl, by simp⟩, hs.free_tail, hperm⟩, rfl, rfl⟩
    simp [insertDelay, hs.allocDelayd_run, setDWakeTime, setDProcID, setDNext, hs.active.start]
  | cons h t =>
    have hlen : t.length < k := by
      have := hs.length_add_length
      simp only [List.length_cons] at this
      omega
    have hact : IsList (Function.update a.dNext f none) a.activeDelaydListH (h :: t) :=
      hs.active.update hfl
    obtain ⟨before, hbefore⟩ : ∃ before : Fin k → Bool, ∀ d, before d =
      decide ((Function.update a.dWakeTime f w d).toInt < w.toInt) := ⟨_, fun _ => rfl⟩
    -- the new node is not among those it is compared with
    have hold : ∀ d ∈ t, before d = decide ((a.dWakeTime d).toInt < w.toInt) := by
      intro d hd
      have hdf : d ≠ f := fun e => hfl (e ▸ List.mem_cons_of_mem h hd)
      rw [hbefore, Function.update_of_ne hdf]
    obtain ⟨c, hc, hfind, hlist⟩ := hact.insert_findPrev before hfl hlen
    have hcfs : c ∉ fs := fun hm => (List.nodup_append.mp hs.nodup).2.2 c hc c (by simp [hm]) rfl
    refine ⟨{ a with
      dNext := Function.update (Function.update (Function.update a.dNext f none) f
        (Function.update a.dNext f none c)) c (some f)
      dWakeTime := Function.update a.dWakeTime f w
      dProcID := Function.update a.dProcID f q
      delaydFreeH := fs.head? }, ?_, ⟨?_, ?_, hperm⟩, rfl, rfl⟩
    · rw [funext hbefore] at hfind
      simp [insertDelay, hs.allocDelayd_run, setDWakeTime, setDProcID, setDNext, hs.active.start,
        findPreviousDelayd, hfind]
    · obtain ⟨htake, hdrop⟩ := splitWhile_congr hold
      rw [place, ← htake, ← hdrop]
      exact hlist
    · exact (hs.free_tail.update hffs).update hcfs

/-- `insertDelay` has a result and keeps the lists well formed. -/
theorem insertDelay_result (hs : AdlShape a l fs) :
    ∃ ok a' l' fs', (insertDelay w q).run a = some (ok, a') ∧ AdlShape a' l' fs' := by
  cases fs with
  | nil => exact ⟨false, a, l, [], hs.insertDelay_full, hs⟩
  | cons f fs =>
    obtain ⟨a', hrun, hs', -⟩ := hs.insertDelay_run (w := w) (q := q)
    exact ⟨true, a', _, fs, hrun, hs'⟩

/-- `removeDelay` takes the head. -/
theorem removeDelay_run (hs : AdlShape a (d :: l) fs) :
    ∃ a', removeDelay.run a = some (a.dProcID d, a') ∧ AdlShape a' l (d :: fs) ∧
      a'.dWakeTime = a.dWakeTime ∧ a'.dProcID = a.dProcID := by
  have hdl : d ∉ l ++ fs := (List.nodup_cons.mp hs.nodup).1
  have hd : d ∉ l ∧ d ∉ fs := by simpa using hdl
  have hnext : a.dNext d = l.head? := IsList.start hs.active.2
  have hfree : IsList (Function.update a.dNext d none) a.delaydFreeH fs := hs.free.update hd.2
  have hact : IsList (Function.update a.dNext d none) l.head? l :=
    IsList.update (hnext ▸ hs.active.2) hd.1
  refine ⟨{ a with
    dNext := Function.update (Function.update a.dNext d none) d a.delaydFreeH
    delaydFreeH := some d
    activeDelaydListH := l.head? }, ?_, ⟨hact.update hd.1, hfree.push hd.2, ?_⟩, rfl, rfl⟩
  · cases hstart : a.delaydFreeH <;>
      simp [removeDelay, freeDelayd, hs.active.start, hnext, setDNext, hstart]
  · exact List.perm_middle.trans hs.perm

/-- `removeDelay` on an empty list. -/
theorem removeDelay_nil (hs : AdlShape a [] fs) : removeDelay.run a = some (-1, a) := by
  simp [removeDelay, hs.active.start]

end AdlShape

/-! ## `initADL` -/

/-- Freeing nodes pushes them. -/
theorem forM_freeDelayd_run (l : List (Fin k)) : ∀ {a : Adl k} {fs : List (Fin k)},
    IsList a.dNext a.delaydFreeH fs → (l ++ fs).Nodup → a.activeDelaydListH = none →
      ∃ a', (l.forM freeDelayd).run a = some ((), a') ∧ a'.activeDelaydListH = none ∧
        IsList a'.dNext a'.delaydFreeH (l.reverse ++ fs) := by
  induction l with
  | nil => exact fun hf _ hact => ⟨_, rfl, hact, hf⟩
  | cons d l ih =>
    intro a fs hf hnd hact
    have hd : d ∉ fs := fun hm => (List.nodup_cons.mp hnd).1 (List.mem_append_right _ hm)
    have hrun : (freeDelayd d).run a = some ((), { a with
        dNext := Function.update a.dNext d a.delaydFreeH, delaydFreeH := some d }) := by
      cases hstart : a.delaydFreeH <;> simp [freeDelayd, hstart, setDNext]
    obtain ⟨a', hrest, hact', hlist⟩ := ih (a := { a with
      dNext := Function.update a.dNext d a.delaydFreeH, delaydFreeH := some d }) (hf.push hd)
      (List.perm_middle.nodup_iff.mpr hnd) hact
    refine ⟨a', ?_, hact', by simpa using hlist⟩
    change (freeDelayd d >>= fun _ => l.forM freeDelayd).run a = _
    rw [StateT.run_bind, hrun]
    exact hrest

/-- `initADL` frees every node, whatever the data were before. -/
theorem initADL_run (a : Adl k) :
    ∃ a' fs, initADL.run a = some ((), a') ∧ AdlShape a' [] fs := by
  have hempty : IsList a.dNext none [] := rfl
  obtain ⟨a', hrun, hact, hlist⟩ := forM_freeDelayd_run (List.finRange k)
    (a := { a with delaydFreeH := none, activeDelaydListH := none }) hempty
    (by simpa using List.nodup_finRange k) rfl
  rw [List.append_nil] at hlist
  exact ⟨a', _, hrun, hact, hlist, List.reverse_perm _⟩

end Jaeos
