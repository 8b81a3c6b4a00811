import Jaeos.Support.Types
import Jaeos.Lib.LinkedList
import Jaeos.Lib.LinkedRing
import Mathlib.Data.List.FinRange

/-!
# The active virtual semaphore list (`phase3/avsl.c`)

The functions of `avsl.c` on their static data, in a state monad over `Option`.
`AvslShape a l fs` says that `l` is the ring of active nodes, from `virtSemd_h` on, and
`fs` the free list. `vRemoveBlocked` has one lemma for each way to take a node out but
one: it does not unlink the head of a ring of two nodes or more, so the ring is lost.
Seen from outside, the data hold a list of pairs of a semaphore and a process
(`Avsl.Holds`).
-/

namespace Jaeos

open LinkedList LinkedRing

/-- A node of `virtSemdTable`. -/
abbrev VirtSemdPtr : Type := Fin (maxProc + 1)

/-- The static data of `avsl.c`. -/
structure Avsl where
  /-- `vs_next` -/
  vsNext : VirtSemdPtr → Option VirtSemdPtr
  /-- `vs_prev` -/
  vsPrev : VirtSemdPtr → Option VirtSemdPtr
  /-- `vs_semaphore` -/
  vsSemaphore : VirtSemdPtr → Word
  /-- `vs_procID` -/
  vsProcID : VirtSemdPtr → ℤ
  /-- `virtSemd_h` -/
  virtSemdH : Option VirtSemdPtr
  /-- `virtSemdFree_h` -/
  virtSemdFreeH : Option VirtSemdPtr

/-- The monad of `avsl.c`. -/
abbrev AvslM : Type → Type := StateT Avsl Option

/-- `virtSemd->vs_next = v` -/
def setVsNext (d : VirtSemdPtr) (v : Option VirtSemdPtr) : AvslM Unit :=
  modify fun a => { a with vsNext := Function.update a.vsNext d v }

/-- `virtSemd->vs_prev = v` -/
def setVsPrev (d : VirtSemdPtr) (v : Option VirtSemdPtr) : AvslM Unit :=
  modify fun a => { a with vsPrev := Function.update a.vsPrev d v }

/-- `virtSemd->vs_semaphore = v` -/
def setVsSemaphore (d : VirtSemdPtr) (v : Word) : AvslM Unit :=
  modify fun a => { a with vsSemaphore := Function.update a.vsSemaphore d v }

/-- `virtSemd->vs_procID = v` -/
def setVsProcID (d : VirtSemdPtr) (v : ℤ) : AvslM Unit :=
  modify fun a => { a with vsProcID := Function.update a.vsProcID d v }

/-- `freeVirtSemd` -/
def freeVirtSemd (virtSemd : VirtSemdPtr) : AvslM Unit := do
  match (← get).virtSemdFreeH with
  | none =>
    modify fun a => { a with virtSemdFreeH := some virtSemd }
    setVsNext virtSemd none
  | some h =>
    setVsNext virtSemd (some h)
    modify fun a => { a with virtSemdFreeH := some virtSemd }

/-- `allocVirtSemd` -/
def allocVirtSemd : AvslM (Option VirtSemdPtr) := do
  match (← get).virtSemdFreeH with
  | none => return none
  | some retSemd =>
    match (← get).vsNext retSemd with
    | none => modify fun a => { a with virtSemdFreeH := none }
    | some h =>
      modify fun a => { a with virtSemdFreeH := some h }
      setVsNext retSemd none
    setVsNext retSemd none
    setVsPrev retSemd none
    setVsSemaphore retSemd 0
    setVsProcID retSemd (-1)
    return some retSemd

/-- `initAVSL` -/
def initAVSL : AvslM Unit := do
  modify fun a => { a with virtSemdFreeH := none, virtSemdH := none }
  (List.finRange (maxProc + 1)).forM freeVirtSemd

/-- `vInsertBlocked` -/
def vInsertBlocked (vSemAdd : Word) (procID : ℤ) : AvslM Bool := do
  match ← allocVirtSemd with
  | none => return false
  | some newVSemd =>
    setVsSemaphore newVSemd vSemAdd
    setVsProcID newVSemd procID
    match (← get).virtSemdH with
    | none =>
      modify fun a => { a with virtSemdH := some newVSemd }
      setVsNext newVSemd (some newVSemd)
      setVsPrev newVSemd (some newVSemd)
    | some h =>
      setVsNext newVSemd (some h)
      setVsNext (← (← get).vsPrev h) (some newVSemd)
      setVsPrev newVSemd ((← get).vsPrev h)
      setVsPrev h (some newVSemd)
    return true

/-- The search loop of `vRemoveBlocked`, for at most as many steps: it ends at `h` when it
has gone all the way around. -/
def findVirtSemd (a : Avsl) (vSemAdd : Word) (h : VirtSemdPtr) :
    ℕ → Option VirtSemdPtr → Option VirtSemdPtr
  | 0, _ => none
  | _ + 1, none => none
  | n + 1, some c =>
    if c = h ∨ a.vsSemaphore c = vSemAdd then some c else findVirtSemd a vSemAdd h n (a.vsNext c)

/-- `vRemoveBlocked`: `FALSE` is 0. -/
def vRemoveBlocked (vSemAdd : Word) : AvslM ℤ := do
  match (← get).virtSemdH with
  | none => return 0
  | some h =>
    if (← get).vsNext h = some h then
      if (← get).vsSemaphore h = vSemAdd then
        let retProcID := (← get).vsProcID h
        setVsNext h none
        setVsPrev h none
        freeVirtSemd h
        modify fun a => { a with virtSemdH := none }
        return retProcID
      else
        return 0
    else if (← get).vsSemaphore h = vSemAdd then
      let retProcID := (← get).vsProcID h
      setVsNext h ((← get).vsNext (← (← get).vsNext h))
      setVsPrev h ((← get).vsPrev (← (← get).vsPrev h))
      let temp := (← get).vsNext h
      freeVirtSemd h
      modify fun a => { a with virtSemdH := temp }
      return retProcID
    else
      let currentVSemd ← findVirtSemd (← get) vSemAdd h (maxProc + 2) ((← get).vsNext h)
      if currentVSemd = h then
        return 0
      else
        let retProcID := (← get).vsProcID currentVSemd
        setVsNext (← (← get).vsPrev currentVSemd) ((← get).vsNext currentVSemd)
        setVsPrev (← (← get).vsNext currentVSemd) ((← get).vsPrev currentVSemd)
        freeVirtSemd currentVSemd
        return retProcID

/-- The processes that have a pair for `v`. -/
def named (es : List (Word × ℤ)) (v : Word) : List ℤ := (es.filter fun e => e.1 = v).map Prod.snd

namespace Avsl

/-- The links of the ring. -/
def links (a : Avsl) : Links VirtSemdPtr := ⟨a.vsNext, a.vsPrev⟩

/-- The active nodes from `virtSemd_h` on, as a reader sees them who follows the pointers. -/
def active (a : Avsl) : List VirtSemdPtr :=
  ringList a.links (maxProc + 1) (a.virtSemdH.bind a.vsPrev)

/-- What a node says: `vs_semaphore` and `vs_procID`. -/
def entry (a : Avsl) (d : VirtSemdPtr) : Word × ℤ := (a.vsSemaphore d, a.vsProcID d)

/-- What the active nodes say, from `virtSemd_h` on. -/
def entries (a : Avsl) : List (Word × ℤ) := a.active.map a.entry

/-- The head is for `v`, and is not alone. -/
def LongHead (a : Avsl) (v : Word) : Prop :=
  match a.entries with
  | e :: _ :: _ => e.1 = v
  | _ => False

instance (a : Avsl) (v : Word) : Decidable (a.LongHead v) := by
  unfold LongHead
  split <;> infer_instance

/-- The processes that have a node for `v`, in the order of the list. -/
def procs (a : Avsl) (v : Word) : List ℤ := named a.entries v

end Avsl

/-! ## The two lists -/

/-- `l` is the ring of active nodes and `fs` the free list. -/
structure AvslShape (a : Avsl) (l fs : List VirtSemdPtr) : Prop where
  /-- the active nodes form a ring -/
  ring : IsRing a.links l
  /-- it starts at `virtSemd_h` -/
  head : a.virtSemdH = l.head?
  /-- the free nodes form a list -/
  free : IsList a.vsNext a.virtSemdFreeH fs
  /-- each node is in exactly one of them -/
  perm : (l ++ fs).Perm (List.finRange (maxProc + 1))

variable {a : Avsl} {l l₁ l₂ fs : List VirtSemdPtr} {d f h : VirtSemdPtr} {v : Word} {q : ℤ}

namespace AvslShape

theorem nodup (hs : AvslShape a l fs) : (l ++ fs).Nodup :=
  hs.perm.nodup_iff.mpr (List.nodup_finRange _)

theorem length_add_length (hs : AvslShape a l fs) : l.length + fs.length = maxProc + 1 := by
  simpa using hs.perm.length_eq

theorem notMem_of_free (hs : AvslShape a l (f :: fs)) : f ∉ l ∧ f ∉ fs := by
  obtain ⟨-, hfs, hdisj⟩ := List.nodup_append.mp hs.nodup
  exact ⟨fun hm => hdisj f hm f (by simp) rfl, (List.nodup_cons.mp hfs).1⟩

/-- An active node is not free. -/
theorem notMem_free (hs : AvslShape a l fs) (hd : d ∈ l) : d ∉ fs := fun hm =>
  (List.nodup_append.mp hs.nodup).2.2 d hd d hm rfl

/-- The predecessor of the head is the last node. -/
theorem prev_head (hs : AvslShape a (h :: l) fs) :
    a.vsPrev h = some ((h :: l).getLast (by simp)) := (IsRing.cons_iff.mp hs.ring).2.2.2

/-- The pointers determine the ring. -/
theorem active_eq (hs : AvslShape a l fs) : a.active = l := by
  have htail : a.virtSemdH.bind a.vsPrev = l.getLast? := by
    rw [hs.head]
    cases l with
    | nil => rfl
    | cons h t => exact hs.prev_head.trans (List.getLast?_eq_some_getLast (by simp)).symm
  have hlen := hs.length_add_length
  rw [Avsl.active, htail]
  exact hs.ring.ringList_eq (by omega)

/-- `allocVirtSemd` takes the first free node. -/
theorem allocVirtSemd_run (hs : AvslShape a l (f :: fs)) :
    allocVirtSemd.run a = some (some f, { a with
      vsNext := Function.update a.vsNext f none
      vsPrev := Function.update a.vsPrev f none
      vsSemaphore := Function.update a.vsSemaphore f 0
      vsProcID := Function.update a.vsProcID f (-1)
      virtSemdFreeH := fs.head? }) := by
  have hnext : a.vsNext f = fs.head? := IsList.start hs.free.2
  cases fs <;> simp [allocVirtSemd, hs.free.start, hnext, setVsNext, setVsPrev, setVsSemaphore,
    setVsProcID]

/-- `vInsertBlocked` without a free node. -/
theorem vInsertBlocked_full (hs : AvslShape a l []) :
    (vInsertBlocked v q).run a = some (false, a) := by
  simp [vInsertBlocked, allocVirtSemd, hs.free.start]

/-- `vInsertBlocked` puts the first free node behind all others. -/
theorem vInsertBlocked_run (hs : AvslShape a l (f :: fs)) :
    ∃ a', (vInsertBlocked v q).run a = some (true, a') ∧ AvslShape a' (l ++ [f]) fs ∧
      a'.vsSemaphore = Function.update a.vsSemaphore f v ∧
      a'.vsProcID = Function.update a.vsProcID f q := by
  obtain ⟨hfl, hffs⟩ := hs.notMem_of_free
  have hperm : (l ++ [f] ++ fs).Perm (List.finRange (maxProc + 1)) := by simpa using hs.perm
  have hnext : a.vsNext f = fs.head? := IsList.start hs.free.2
  have hfree : IsList a.vsNext fs.head? fs := hnext ▸ hs.free.2
  cases l with
  | nil =>
    refine ⟨{ a with
      vsNext := Function.update a.vsNext f (some f)
      vsPrev := Function.update a.vsPrev f (some f)
      vsSemaphore := Function.update a.vsSemaphore f v
      vsProcID := Function.update a.vsProcID f q
      virtSemdH := some f
      virtSemdFreeH := fs.head? }, ?_,
      ⟨IsRing.singleton (Function.update_self ..) (Function.update_self ..), rfl,
        hfree.update hffs, hperm⟩, rfl, rfl⟩
    simp [vInsertBlocked, hs.allocVirtSemd_run, setVsNext, setVsPrev, setVsSemaphore,
      setVsProcID, hs.head]
  | cons h t =>
    obtain ⟨z, hz⟩ : ∃ z, z = (h :: t).getLast (by simp) := ⟨_, rfl⟩
    have hprev : a.vsPrev h = some z := by rw [hz]; exact hs.prev_head
    have hzmem : z ∈ h :: t := by rw [hz]; exact List.getLast_mem _
    have hhf : h ≠ f := fun e => hfl (e ▸ List.mem_cons_self ..)
    have hzfs : z ∉ fs := fun hm => hs.notMem_free hzmem (List.mem_cons_of_mem _ hm)
    refine ⟨{ a with
      vsNext := Function.update (Function.update a.vsNext f (some h)) z (some f)
      vsPrev := Function.update (Function.update a.vsPrev h (some f)) f (some z)
      vsSemaphore := Function.update a.vsSemaphore f v
      vsProcID := Function.update a.vsProcID f q
      virtSemdFreeH := fs.head? }, ?_,
      ⟨hs.ring.snoc hfl hz, hs.head, (hfree.update hffs).update hzfs, hperm⟩, rfl, rfl⟩
    have hcomm : Function.update (Function.update a.vsPrev f (some z)) h (some f) =
        Function.update (Function.update a.vsPrev h (some f)) f (some z) :=
      Function.update_comm hhf.symm ..
    simp [vInsertBlocked, hs.allocVirtSemd_run, setVsNext, setVsPrev, setVsSemaphore,
      setVsProcID, hs.head, Function.update_of_ne hhf, hprev, hcomm]

/-! ## `vRemoveBlocked` -/

/-- The search finds the first node for `v` between the start and the head. -/
theorem findVirtSemd_eq {n : ℕ} (hchain : (l ++ [h]).IsChain a.links.Adj) (hh : h ∉ l)
    (hn : l.length < n) :
    findVirtSemd a v h n (l ++ [h]).head? =
      some ((l.find? fun d => a.vsSemaphore d = v).getD h) := by
  induction l generalizing n with
  | nil =>
    obtain ⟨m, rfl⟩ : ∃ m, n = m + 1 := ⟨n - 1, by omega⟩
    simp [findVirtSemd]
  | cons c l ih =>
    obtain ⟨m, rfl⟩ : ∃ m, n = m + 1 := ⟨n - 1, by omega⟩
    have hch : c ≠ h := fun e => hh (e ▸ List.mem_cons_self ..)
    have hnext : a.vsNext c = (l ++ [h]).head? := by
      obtain ⟨x, m, hx⟩ : ∃ x m, l ++ [h] = x :: m := List.exists_cons_of_ne_nil (by simp)
      rw [List.cons_append, hx] at hchain
      rw [hx]
      exact hchain.rel.1
    rw [List.cons_append, List.head?_cons, findVirtSemd, hnext]
    by_cases hcv : a.vsSemaphore c = v
    · simp [hcv]
    · rw [if_neg (by simp [hch, hcv]), ih (List.IsChain.tail hchain)
        (fun hm => hh (List.mem_cons_of_mem _ hm)) (by simpa using hn)]
      simp [hcv]

/-- The search from the successor of the head of a ring. -/
theorem search_run (hs : AvslShape a (h :: l) fs) :
    findVirtSemd a v h (maxProc + 2) (a.vsNext h) =
      some ((l.find? fun d => a.vsSemaphore d = v).getD h) := by
  have hchain : (h :: (l ++ [h])).IsChain a.links.Adj := by simpa using hs.ring.chain
  have hnext : a.vsNext h = (l ++ [h]).head? := by
    obtain ⟨x, m, hx⟩ : ∃ x m, l ++ [h] = x :: m := List.exists_cons_of_ne_nil (by simp)
    rw [hx] at hchain ⊢
    exact hchain.rel.1
  have hlen := hs.length_add_length
  rw [List.length_cons] at hlen
  rw [hnext]
  exact findVirtSemd_eq (List.IsChain.tail hchain) (List.nodup_cons.mp hs.ring.nodup).1 (by omega)

/-- A head that is its own successor is alone. -/
theorem next_head_iff (hs : AvslShape a (h :: l) fs) : a.vsNext h = some h ↔ l = [] := by
  have hchain : (h :: (l ++ [h])).IsChain a.links.Adj := by simpa using hs.ring.chain
  cases l with
  | nil => exact iff_of_true hchain.rel.1 rfl
  | cons x l =>
    have hxh : x ≠ h := fun e => (List.nodup_cons.mp hs.ring.nodup).1 (e ▸ List.mem_cons_self ..)
    have hnext : a.vsNext h = some x := hchain.rel.1
    simp [hnext, hxh]

/-- `vRemoveBlocked` when there is no node for `v`. -/
theorem vRemoveBlocked_absent (hs : AvslShape a l fs) (hv : ∀ d ∈ l, a.vsSemaphore d ≠ v) :
    (vRemoveBlocked v).run a = some (0, a) := by
  cases l with
  | nil => simp [vRemoveBlocked, hs.head]
  | cons h l =>
    have hh : a.vsSemaphore h ≠ v := hv h (by simp)
    have hfind : l.find? (fun d => a.vsSemaphore d = v) = none := by
      simpa using fun d hd => hv d (List.mem_cons_of_mem _ hd)
    by_cases hone : a.vsNext h = some h
    · simp [vRemoveBlocked, hs.head, hone, hh]
    · simp [vRemoveBlocked, hs.head, hone, hh, hs.search_run, hfind]

/-- `vRemoveBlocked` of a head that is alone. -/
theorem vRemoveBlocked_single (hs : AvslShape a [d] fs) (hv : a.vsSemaphore d = v) :
    ∃ a', (vRemoveBlocked v).run a = some (a.vsProcID d, a') ∧ AvslShape a' [] (d :: fs) ∧
      a'.vsSemaphore = a.vsSemaphore ∧ a'.vsProcID = a.vsProcID := by
  have hdfs : d ∉ fs := hs.notMem_free (by simp)
  refine ⟨{ a with
    vsNext := Function.update (Function.update a.vsNext d none) d a.virtSemdFreeH
    vsPrev := Function.update a.vsPrev d none
    virtSemdH := none
    virtSemdFreeH := some d }, ?_, ⟨IsRing.nil, rfl, (hs.free.update hdfs).push hdfs, hs.perm⟩,
    rfl, rfl⟩
  cases hstart : a.virtSemdFreeH <;>
    simp [vRemoveBlocked, hs.head, hs.next_head_iff.mpr rfl, hv, setVsNext, setVsPrev,
      freeVirtSemd, hstart]

/-- `vRemoveBlocked` of a node behind the head. -/
theorem vRemoveBlocked_inner (hs : AvslShape a (h :: l₁ ++ d :: l₂) fs)
    (hfirst : ∀ e ∈ h :: l₁, a.vsSemaphore e ≠ v) (hv : a.vsSemaphore d = v) :
    ∃ a', (vRemoveBlocked v).run a = some (a.vsProcID d, a') ∧
      AvslShape a' (h :: l₁ ++ l₂) (d :: fs) ∧
      a'.vsSemaphore = a.vsSemaphore ∧ a'.vsProcID = a.vsProcID := by
  have hs' : AvslShape a (h :: (l₁ ++ d :: l₂)) fs := hs
  have hone : a.vsNext h ≠ some h := fun e => by simpa using hs'.next_head_iff.mp e
  have hh : a.vsSemaphore h ≠ v := hfirst h (by simp)
  have hfind : (l₁ ++ d :: l₂).find? (fun e => a.vsSemaphore e = v) = some d := by
    rw [List.find?_append, List.find?_eq_none.mpr fun e he => by
      simpa using hfirst e (List.mem_cons_of_mem _ he)]
    simp [hv]
  have hdmem : d ∈ h :: l₁ ++ d :: l₂ := by simp
  have hdfs : d ∉ fs := hs.notMem_free hdmem
  have hdrest : d ∉ h :: l₁ ++ l₂ :=
    (List.nodup_cons.mp (List.perm_middle.nodup_iff.mp hs.ring.nodup)).1
  have hdh : d ≠ h := fun e => hdrest (by simp [e])
  obtain ⟨q, r, hprev, hnext, hq, hr, hring⟩ := hs.ring.remove (by simp)
  have hprev' : a.vsPrev d = some q := hprev
  have hnext' : a.vsNext d = some r := hnext
  have hqd : q ≠ d := fun e => hdrest (e ▸ hq)
  have hrd : r ≠ d := fun e => hdrest (e ▸ hr)
  have hqfs : q ∉ fs := hs.notMem_free (by
    rcases List.mem_append.mp hq with hm | hm
    · exact List.mem_append_left _ hm
    · exact List.mem_append_right _ (List.mem_cons_of_mem _ hm))
  refine ⟨{ a with
    vsNext := Function.update (Function.update a.vsNext q (some r)) d a.virtSemdFreeH
    vsPrev := Function.update a.vsPrev r (some q)
    virtSemdFreeH := some d }, ?_, ⟨?_, hs.head, (hs.free.update hqfs).push hdfs, ?_⟩, rfl, rfl⟩
  · cases hstart : a.virtSemdFreeH <;>
      simp [vRemoveBlocked, hs'.head, hone, hh, hs'.search_run, hfind, hdh, hprev', hnext',
        setVsNext, setVsPrev, freeVirtSemd, hstart, Function.update_of_ne hqd.symm]
  · refine hring.congr (fun x hx => Function.update_of_ne ?_ _ _) fun _ _ => rfl
    rintro rfl
    exact hdrest hx
  · have hmove : (h :: l₁ ++ l₂ ++ d :: fs).Perm (h :: l₁ ++ d :: l₂ ++ fs) :=
      List.perm_middle.trans (List.perm_middle.symm.append_right fs)
    exact hmove.trans hs.perm

/-- `vRemoveBlocked` takes out the first node for `v`, unless it is the head of a ring of two nodes
or more. -/
theorem vRemoveBlocked_run (hs : AvslShape a (l₁ ++ d :: l₂) fs)
    (hfirst : ∀ e ∈ l₁, a.vsSemaphore e ≠ v) (hv : a.vsSemaphore d = v)
    (hhead : l₁ = [] → l₂ = []) :
    ∃ a', (vRemoveBlocked v).run a = some (a.vsProcID d, a') ∧
      AvslShape a' (l₁ ++ l₂) (d :: fs) ∧
      a'.vsSemaphore = a.vsSemaphore ∧ a'.vsProcID = a.vsProcID := by
  cases l₁ with
  | nil =>
    obtain rfl := hhead rfl
    exact hs.vRemoveBlocked_single hv
  | cons h l₁ => exact hs.vRemoveBlocked_inner hfirst hv

/-- `vRemoveBlocked` of the head of a ring of two nodes or more: it is freed, but the ring still
goes through it. -/
theorem vRemoveBlocked_head {x : VirtSemdPtr} {r : List VirtSemdPtr}
    (hs : AvslShape a (h :: x :: r) fs) (hv : a.vsSemaphore h = v) :
    ∃ a', (vRemoveBlocked v).run a = some (a.vsProcID h, a') ∧ a'.virtSemdFreeH = some h ∧
      a'.virtSemdH = a.vsNext x ∧ ∀ d, d ≠ h → a'.vsNext d = a.vsNext d := by
  have hxh : h ≠ x := fun e => (List.nodup_cons.mp hs.ring.nodup).1 (e ▸ List.mem_cons_self ..)
  obtain ⟨-, hch, hlast⟩ := IsRing.cons_iff.mp hs.ring
  have hnext : a.vsNext h = some x := hch.rel.1
  -- the predecessor of the head, and its own predecessor
  obtain ⟨q, hq⟩ : ∃ q, a.vsPrev h = some q := ⟨_, hs.prev_head⟩
  refine ⟨{ a with
    vsNext := Function.update a.vsNext h a.virtSemdFreeH
    vsPrev := Function.update a.vsPrev h (a.vsPrev q)
    virtSemdH := a.vsNext x
    virtSemdFreeH := some h }, ?_, rfl, rfl, fun d hd => Function.update_of_ne hd ..⟩
  cases hstart : a.virtSemdFreeH <;>
    simp [vRemoveBlocked, hs.head, hnext, hxh.symm, hv, hq, setVsNext, setVsPrev,
      freeVirtSemd, hstart]

/-- After that the data are not well formed. -/
theorem not_shape_of_head {x : VirtSemdPtr} {r l' fs' : List VirtSemdPtr} {a' : Avsl}
    (hs : AvslShape a (h :: x :: r) fs) (hfree : a'.virtSemdFreeH = some h)
    (hhead : a'.virtSemdH = a.vsNext x) (hnext : ∀ d, d ≠ h → a'.vsNext d = a.vsNext d) :
    ¬ AvslShape a' l' fs' := by
  intro hs'
  -- the old head is free
  have hmem : h ∈ fs' := by
    have hstart := hs'.free.start
    rw [hfree] at hstart
    exact List.mem_of_head? hstart.symm
  -- and the ring from the new head leads to the old one
  have hnd := List.nodup_cons.mp hs.ring.nodup
  have hchain : (x :: (r ++ [h])).IsChain a.links.Adj := by
    have hring : (h :: x :: (r ++ [h])).IsChain a.links.Adj := hs.ring.chain
    exact List.IsChain.tail hring
  obtain ⟨y, c, hy⟩ : ∃ y c, r ++ [h] = y :: c := List.exists_cons_of_ne_nil (by simp)
  have hlast : h ∈ y :: c := by simp [← hy]
  have hinit : (y :: c).dropLast = r := by simp [← hy]
  rw [hy] at hchain
  have hhead' : a'.virtSemdH = some y := hhead.trans hchain.rel.1
  have hyl : y ∈ l' := List.mem_of_head? (hs'.head.symm.trans hhead')
  refine hs'.notMem_free (hs'.ring.mem_of_chain (List.IsChain.tail hchain) hyl ?_ h hlast) hmem
  intro d hd
  rw [hinit] at hd
  exact hnext d fun e => hnd.1 (e ▸ List.mem_cons_of_mem _ hd)

end AvslShape

/-! ## `initAVSL` -/

/-- Freeing nodes pushes them. -/
theorem forM_freeVirtSemd_run (l : List VirtSemdPtr) : ∀ {a : Avsl} {fs : List VirtSemdPtr},
    IsList a.vsNext a.virtSemdFreeH fs → (l ++ fs).Nodup → a.virtSemdH = none →
      ∃ a', (l.forM freeVirtSemd).run a = some ((), a') ∧ a'.virtSemdH = none ∧
        IsList a'.vsNext a'.virtSemdFreeH (l.reverse ++ fs) := by
  induction l with
  | nil => exact fun hf _ hh => ⟨_, rfl, hh, hf⟩
  | cons d l ih =>
    intro a fs hf hnd hh
    have hd : d ∉ fs := fun hm => (List.nodup_cons.mp hnd).1 (List.mem_append_right _ hm)
    have hrun : (freeVirtSemd d).run a = some ((), { a with
        vsNext := Function.update a.vsNext d a.virtSemdFreeH, virtSemdFreeH := some d }) := by
      cases hstart : a.virtSemdFreeH <;> simp [freeVirtSemd, hstart, setVsNext]
    obtain ⟨a', hrest, hh', hlist⟩ := ih (a := { a with
      vsNext := Function.update a.vsNext d a.virtSemdFreeH, virtSemdFreeH := some d }) (hf.push hd)
      (List.perm_middle.nodup_iff.mpr hnd) hh
    refine ⟨a', ?_, hh', by simpa using hlist⟩
    change (freeVirtSemd d >>= fun _ => l.forM freeVirtSemd).run a = _
    rw [StateT.run_bind, hrun]
    exact hrest

/-- `initAVSL` frees every node, whatever the data were before. -/
theorem initAVSL_run (a : Avsl) :
    ∃ a' fs, initAVSL.run a = some ((), a') ∧ AvslShape a' [] fs := by
  -- the table itself is not to be looked at
  obtain ⟨nodes, hnodes⟩ : ∃ nodes, nodes = List.finRange (maxProc + 1) := ⟨_, rfl⟩
  have hnd : (nodes ++ []).Nodup := by
    rw [List.append_nil, hnodes]
    exact List.nodup_finRange _
  have hempty : IsList a.vsNext none [] := rfl
  obtain ⟨a', hrun, hh, hlist⟩ := forM_freeVirtSemd_run nodes
    (a := { a with virtSemdFreeH := none, virtSemdH := none }) hempty hnd rfl
  rw [List.append_nil] at hlist
  refine ⟨a', nodes.reverse, ?_, IsRing.nil, hh, hlist, ?_⟩
  · rw [initAVSL, ← hnodes]
    exact hrun
  · rw [List.nil_append, ← hnodes]
    exact List.reverse_perm nodes

/-! ## Which processes a list of pairs names -/

variable {es e₁ e₂ : List (Word × ℤ)} {w : Word}

@[simp] theorem named_append : named (e₁ ++ e₂) v = named e₁ v ++ named e₂ v := by
  rw [named, List.filter_append, List.map_append, named, named]

@[simp] theorem named_singleton : named [(w, q)] v = if w = v then [q] else [] := by
  by_cases h : w = v <;> simp [named, h]

theorem named_cons : named ((w, q) :: es) v = (if w = v then [q] else []) ++ named es v := by
  rw [← List.singleton_append, named_append, named_singleton]

theorem length_named_le : (named es v).length ≤ es.length := by
  rw [named, List.length_map]
  exact List.length_filter_le _ _

/-- Nobody is named in front of the first pair. -/
theorem named_first (hfirst : ∀ e ∈ e₁, e.1 ≠ v) : named e₁ v = [] := by
  rw [named, List.filter_eq_nil_iff.mpr fun e he => by simpa using hfirst e he, List.map_nil]

/-- The pair of the first process named. -/
theorem exists_of_named {rest : List ℤ} (h : named es v = q :: rest) : ∃ e₁ e₂,
    es = e₁ ++ (v, q) :: e₂ ∧ (∀ e ∈ e₁, e.1 ≠ v) ∧ named (e₁ ++ e₂) v = rest := by
  obtain ⟨⟨v', q'⟩, m, hfilter, hq, hrest⟩ := List.map_eq_cons_iff.mp h
  obtain ⟨e₁, e₂, rfl, hfirst, hv, hm⟩ := List.filter_eq_cons_iff.mp hfilter
  obtain rfl : v' = v := by simpa using hv
  obtain rfl : q' = q := hq
  have hfirst' : ∀ e ∈ e₁, e.1 ≠ v' := fun e he => by simpa using hfirst e he
  refine ⟨e₁, e₂, rfl, hfirst', ?_⟩
  rw [named_append, named_first hfirst', List.nil_append, named, hm, hrest]

/-- Without the pair of `q`, `q` is not named. -/
theorem named_remove (honce : ((e₁ ++ (w, q) :: e₂).map Prod.snd).Nodup) :
    named (e₁ ++ e₂) v = (named (e₁ ++ (w, q) :: e₂) v).filter (· ≠ q) := by
  rw [List.map_append, List.map_cons] at honce
  obtain ⟨hnot, -⟩ := List.nodup_cons.mp (List.perm_middle.nodup_iff.mp honce)
  have hother : ∀ es' : List (Word × ℤ), q ∉ es'.map Prod.snd →
      (named es' v).filter (· ≠ q) = named es' v := by
    intro es' hq
    refine List.filter_eq_self.mpr fun r hr => ?_
    obtain ⟨e, he, rfl⟩ := List.mem_map.mp hr
    have hne : e.2 ≠ q := fun h => hq (h ▸ List.mem_map_of_mem (List.mem_of_mem_filter he))
    simpa using hne
  rw [named_append, named_append, named_cons, List.filter_append, List.filter_append,
    hother e₁ fun h => hnot (List.mem_append_left _ h),
    hother e₂ fun h => hnot (List.mem_append_right _ h)]
  by_cases hwv : w = v <;> simp [hwv]

/-! ## A list of pairs -/

/-- The data are well formed, and hold the pairs `es`. -/
def Avsl.Holds (a : Avsl) (es : List (Word × ℤ)) : Prop :=
  ∃ l fs, AvslShape a l fs ∧ l.map a.entry = es

namespace Avsl.Holds

theorem entries_eq (h : a.Holds es) : a.entries = es := by
  obtain ⟨l, fs, hs, hes⟩ := h
  rw [Avsl.entries, hs.active_eq, hes]

theorem procs_eq (h : a.Holds es) : a.procs v = named es v := by
  rw [Avsl.procs, h.entries_eq]

theorem length_le (h : a.Holds es) : es.length ≤ maxProc + 1 := by
  obtain ⟨l, fs, hs, hes⟩ := h
  have := hs.length_add_length
  rw [← hes, List.length_map]
  omega

/-- After `initAVSL` there are none. -/
theorem of_init {a₀ : Avsl} (h : initAVSL.run a₀ = some ((), a)) : a.Holds [] := by
  obtain ⟨a', fs, hrun, hs⟩ := initAVSL_run a₀
  obtain ⟨-, rfl⟩ := Prod.mk.inj (Option.some.inj (hrun.symm.trans h))
  exact ⟨[], fs, hs, rfl⟩

/-- `vInsertBlocked` appends a pair. -/
theorem insert (h : a.Holds es) (hlen : es.length ≤ maxProc) :
    ∃ a', (vInsertBlocked v q).run a = some (true, a') ∧ a'.Holds (es ++ [(v, q)]) := by
  obtain ⟨l, fs, hs, hes⟩ := h
  obtain ⟨f, fs, rfl⟩ : ∃ f fs', fs = f :: fs' := by
    refine List.exists_cons_of_ne_nil ?_
    rintro rfl
    have := hs.length_add_length
    rw [← hes, List.length_map] at hlen
    simp only [List.length_nil] at this
    omega
  obtain ⟨a', hrun, hs', hsem, hproc⟩ := hs.vInsertBlocked_run (v := v) (q := q)
  refine ⟨a', hrun, l ++ [f], fs, hs', ?_⟩
  have hold : l.map a'.entry = l.map a.entry := by
    refine List.map_congr_left fun d hd => ?_
    have hdf : d ≠ f := by
      rintro rfl
      exact hs.notMem_of_free.1 hd
    rw [Avsl.entry, hsem, hproc, Function.update_of_ne hdf, Function.update_of_ne hdf, Avsl.entry]
  rw [List.map_append, hold, hes]
  simp [Avsl.entry, hsem, hproc]

/-- `vInsertBlocked` when every node is in use. -/
theorem insert_full (h : a.Holds es) (hlen : es.length = maxProc + 1) :
    (vInsertBlocked v q).run a = some (false, a) := by
  obtain ⟨l, fs, hs, hes⟩ := h
  have := hs.length_add_length
  rw [← hes, List.length_map] at hlen
  obtain rfl : fs = [] := List.eq_nil_of_length_eq_zero (by omega)
  exact hs.vInsertBlocked_full

/-- `vRemoveBlocked` when there is no pair for `v`. -/
theorem absent (h : a.Holds es) (hv : ∀ e ∈ es, e.1 ≠ v) :
    (vRemoveBlocked v).run a = some (0, a) := by
  obtain ⟨l, fs, hs, hes⟩ := h
  refine hs.vRemoveBlocked_absent fun d hd => hv (a.entry d) ?_
  rw [← hes]
  exact List.mem_map_of_mem hd

/-- `vRemoveBlocked` takes out the first pair for `v`, unless it is the head of a longer list. -/
theorem remove (h : a.Holds (e₁ ++ (v, q) :: e₂)) (hfirst : ∀ e ∈ e₁, e.1 ≠ v)
    (hlong : ¬ a.LongHead v) :
    ∃ a', (vRemoveBlocked v).run a = some (q, a') ∧ a'.Holds (e₁ ++ e₂) := by
  have hhead : e₁ = [] → e₂ = [] := by
    rintro rfl
    cases e₂ with
    | nil => rfl
    | cons e e₂ => exact absurd (by rw [Avsl.LongHead, h.entries_eq]; rfl) hlong
  obtain ⟨l, fs, hs, hes⟩ := h
  obtain ⟨l₁, r, rfl, rfl, hr⟩ := List.map_eq_append_iff.mp hes
  obtain ⟨d, l₂, rfl, hd, rfl⟩ := List.map_eq_cons_iff.mp hr
  obtain ⟨rfl, rfl⟩ : a.vsSemaphore d = v ∧ a.vsProcID d = q := Prod.mk.inj hd
  obtain ⟨a', hrun, hs', hsem, hproc⟩ := hs.vRemoveBlocked_run
    (fun e he => hfirst _ (List.mem_map_of_mem he)) rfl (by simpa using hhead)
  have hentry : a'.entry = a.entry := by
    funext e
    rw [Avsl.entry, hsem, hproc, Avsl.entry]
  exact ⟨a', hrun, l₁ ++ l₂, d :: fs, hs', by rw [hentry, List.map_append]⟩

end Avsl.Holds

end Jaeos
