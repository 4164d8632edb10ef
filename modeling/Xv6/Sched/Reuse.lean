import Xv6.Sched.Lifecycle

/-! What a process can learn about the processes that had its slot before it. -/

namespace Xv6.Sched.Reuse
open Table Passes Lifecycle Lib.Bytes List

/-- The fields that neither freeproc nor allocproc gives a value, with the killed flag that a kill
of pid 0 sets in a free slot. -/
structure Leftover where
  accumulator : Int
  psPriority : Int
  cfsPriority : Int
  rtime : Int
  stime : Int
  retime : Int
  killed : Bool
  deriving DecidableEq

def leftover (p : Proc) : Leftover where
  accumulator := p.accumulator
  psPriority := p.psPriority
  cfsPriority := p.cfsPriority
  rtime := p.rtime
  stime := p.stime
  retime := p.retime
  killed := p.killed

/-- The slot without what its last process left in it. -/
def eraseProc (p : Proc) : Proc :=
  if p.state = .unused then
    { p with accumulator := 0, psPriority := 0, cfsPriority := 0, rtime := 0, stime := 0, retime := 0, killed := false }
  else p

def erase (k : Kernel) : Kernel := k.mapProcs fun _ => eraseProc

theorem eraseProc_live (p : Proc) (live : p.state ≠ .unused) : eraseProc p = p := if_neg live

@[simp] theorem eraseProc_state (p : Proc) : (eraseProc p).state = p.state := by unfold eraseProc; split <;> rfl

@[simp] theorem eraseProc_pid (p : Proc) : (eraseProc p).pid = p.pid := by unfold eraseProc; split <;> rfl

@[simp] theorem eraseProc_parent (p : Proc) : (eraseProc p).parent = p.parent := by unfold eraseProc; split <;> rfl

variable (k : Kernel) (i : Slot)

@[simp] theorem erase_proc : (erase k).proc i = eraseProc (k.proc i) := rfl

variable (change : Proc → Proc)

theorem eraseProc_comm (p : Proc) (fixes : ∀ q, q.state = .unused → change q = q)
    (live : p.state ≠ .unused → (change p).state ≠ .unused) : eraseProc (change p) = change (eraseProc p) := by
  by_cases unused : p.state = .unused
  · rw [fixes p unused, fixes (eraseProc p) (by simpa using unused)]
  · rw [eraseProc_live p unused, eraseProc_live _ (live unused)]

theorem erase_modify
    (comm : eraseProc (change (k.proc i)) = change (eraseProc (k.proc i))) :
    erase (k.modify i change) = (erase k).modify i change := by
  ext1
  · funext j
    by_cases same : j = i
    · subst same
      simp only [erase_proc, Kernel.proc_modify_same]
      exact comm
    · simp only [erase_proc, Kernel.proc_modify_other same]
  all_goals rfl

theorem erase_modify_live (live : (k.proc i).state ≠ .unused)
    (stays : (change (k.proc i)).state ≠ .unused) : erase (k.modify i change) = (erase k).modify i change :=
  erase_modify k i change (by rw [eraseProc_live _ live, eraseProc_live _ stays])

theorem erase_wakeup (self : Option Slot) (chan : Option Chan) :
    erase (k.wakeup self chan) = (erase k).wakeup self chan := by
  ext1
  · funext i
    simp only [erase_proc, Kernel.wakeup, Kernel.proc_mapProcs]
    by_cases here : some i = self
    · simp only [if_pos here]
    · simp only [if_neg here]
      refine eraseProc_comm (Proc.wakeup chan k.minAccumulator) (k.proc i) (fun q unused => ?_) (fun live => ?_)
      · simp [Proc.wakeup, unused]
      · unfold Proc.wakeup
        split
        · simp
        · exact live
  all_goals rfl

theorem erase_cfsUpdate : erase k.cfsUpdate = (erase k).cfsUpdate := by
  ext1
  · funext i
    refine eraseProc_comm Proc.cfsUpdate (k.proc i) (fun q unused => ?_) (fun live => ?_)
    · simp [Proc.cfsUpdate, unused]
    · unfold Proc.cfsUpdate
      split_ifs <;> exact live
  all_goals rfl

theorem erase_psScan (visited : List Slot) : psScan (erase k) visited = psScan k visited := by
  have visit : ∀ scan i p, psVisit scan i (eraseProc p) = psVisit scan i p := by
    intro scan i p
    by_cases unused : p.state = .unused
    · simp [psVisit, unused]
    · rw [eraseProc_live p unused]
  unfold psScan
  simp only [erase_proc, visit]
  rfl

theorem erase_switchTo : Prod.map id erase (switchTo k i) = switchTo (erase k) i := by
  unfold switchTo
  simp only [erase_proc, eraseProc_state]
  split
  · rename_i ready
    have same := erase_modify_live k i (·.setState .running) (by rw [ready]; decide) (by simp [Proc.setState])
    simp only [Prod.map_apply, id_eq, same]
  · rfl

theorem erase_resetLone (procCounter : Int) (k : Kernel) (i : Slot) :
    erase (resetLone procCounter k i) = resetLone procCounter (erase k) i := by
  unfold resetLone
  split
  · have comm : erase (k.modify i (fun p => { p with accumulator := 0 })) =
        (erase k).modify i (fun p => { p with accumulator := 0 }) := by
      refine erase_modify k i _ ?_
      by_cases unused : (k.proc i).state = .unused <;> simp [eraseProc, unused]
    exact congrArg (fun k' : Kernel => { k' with minAccumulator := 0 }) comm
  · rfl

theorem erase_psChoose : Prod.map id erase (psChoose k) = psChoose (erase k) := by
  have scan := erase_psScan k slots
  cases chosen : (psScan k slots).minProc with
  | none =>
    rw [psChoose_none k chosen, psChoose_none (erase k) (by rw [scan]; exact chosen), scan]
    rfl
  | some i =>
    rw [psChoose_some k i chosen, psChoose_some (erase k) i (by rw [scan]; exact chosen), scan,
      erase_switchTo, erase_resetLone]
    rfl

theorem decayFactor_sound (priority current current' : Int) (low : 0 ≤ priority) (high : priority ≤ 2) :
    decayFactor priority current = decayFactor priority current' := by
  have cases : priority = 0 ∨ priority = 1 ∨ priority = 2 := by omega
  rcases cases with rfl | rfl | rfl <;> rfl

/-- The policy-2 scan reads the priority of free slots, but every slot sets the decay factor anew. -/
theorem erase_cfsScan (sound : ∀ i, Sound (k.proc i)) (decay decay' : Int) (visited : List Slot) :
    (cfsScan (erase k) decay' visited).minProc = (cfsScan k decay visited).minProc ∧
      (cfsScan (erase k) decay' visited).minVruntime = (cfsScan k decay visited).minVruntime := by
  induction visited using List.reverseRecOn with
  | nil => exact ⟨rfl, rfl⟩
  | append_singleton visited i ih =>
    have step : ∀ kernel decay, cfsScan kernel decay (visited ++ [i]) =
        cfsVisit (cfsScan kernel decay visited) i (kernel.proc i) :=
      fun kernel decay => by simp only [cfsScan, foldl_append, foldl_cons, foldl_nil]
    rw [step, step, erase_proc]
    by_cases unused : (k.proc i).state = .unused
    · simpa [cfsVisit, unused] using ih
    · rw [eraseProc_live _ unused]
      unfold cfsVisit
      have cfs := (sound i).cfs
      rw [decayFactor_sound _ (cfsScan (erase k) decay' visited).decay (cfsScan k decay visited).decay cfs.1 cfs.2, ih.2]
      simp only
      split_ifs <;> simp [ih]

theorem erase_cfsChoose (sound : ∀ i, Sound (k.proc i)) (decay decay' : Int) :
    Prod.map id erase (cfsChoose k decay) = cfsChoose (erase k) decay' := by
  unfold cfsChoose
  rw [(erase_cfsScan k sound decay decay' slots).1]
  cases (cfsScan k decay slots).minProc with
  | none => rfl
  | some i => exact erase_switchTo k i

variable (p : Slot)

theorem reparent_self : ((reparent k p).proc p).state = (k.proc p).state := by
  unfold reparent
  generalize slots = visited
  induction visited generalizing k with
  | nil => rfl
  | cons pp visited ih =>
    rw [foldl_cons, ih]
    unfold reparentVisit
    split
    · simp only [Kernel.wakeup, Kernel.proc_mapProcs, ↓reduceIte]
      by_cases same : p = pp
      · subst same
        rw [Kernel.proc_modify_same]
      · rw [Kernel.proc_modify_other same]
    · rfl

theorem erase_reparent : erase (reparent k p) = reparent (erase k) p := by
  unfold reparent
  generalize slots = visited
  induction visited generalizing k with
  | nil => rfl
  | cons pp visited ih =>
    rw [foldl_cons, foldl_cons, ih]
    congr 1
    unfold reparentVisit
    rw [erase_proc, eraseProc_parent]
    split
    · rw [erase_wakeup, erase_modify]
      · rfl
      · by_cases unused : (k.proc pp).state = .unused <;> simp [eraseProc, unused]
    · rfl

theorem erase_exit (status : Int) (msg : Buffer 32) (live : (k.proc p).state ≠ .unused) :
    erase <$> exit k p status msg = exit (erase k) p status msg := by
  unfold exit
  by_cases init : p = k.initproc
  · rw [if_pos init, if_pos (show p = (erase k).initproc from init)]
    rfl
  · rw [if_neg init, if_neg (show ¬p = (erase k).initproc from init)]
    have stays : (((reparent k p).wakeup (some p) (((reparent k p).proc p).parent.map .proc)).proc p).state ≠ .unused := by
      simp only [Kernel.wakeup, Kernel.proc_mapProcs, ↓reduceIte]
      rw [reparent_self]
      exact live
    simp only [Except.map_ok]
    rw [erase_modify_live _ _ _ stays (by simp), erase_wakeup, erase_reparent]
    simp only [← erase_reparent, erase_proc, eraseProc_parent]

theorem erase_charge (live : (k.proc i).state ≠ .unused) :
    erase (k.modify i Proc.charge) = (erase k).modify i Proc.charge :=
  erase_modify_live k i Proc.charge live (by rw [Proc.charge_state]; exact live)

theorem erase_yield (live : (k.proc i).state ≠ .unused) : erase (yield k i) = yield (erase k) i :=
  erase_modify_live k i (·.setState .runnable) live (by simp [Proc.setState])

theorem cfsUpdate_state : (k.cfsUpdate.proc i).state = (k.proc i).state :=
  (Proc.cfsUpdate_fields (k.proc i)).1

theorem clockintr_self : (clockintr k (some i)).proc i = k.proc i := by
  simp only [clockintr, Kernel.wakeup, Kernel.proc_mapProcs, ↓reduceIte]

theorem erase_usertrapTimer (live : (k.proc i).state ≠ .unused) :
    erase (usertrapTimer k i) = usertrapTimer (erase k) i := by
  have ticked : ((clockintr k (some i)).proc i).state ≠ .unused := by rw [clockintr_self]; exact live
  unfold usertrapTimer usertrapTick
  rw [erase_yield, erase_cfsUpdate, erase_charge _ _ ticked, clockintr, erase_wakeup]
  · rfl
  · rw [cfsUpdate_state, Kernel.proc_modify_same, Proc.charge_state]
    exact ticked

theorem erase_kerneltrapTimer (live : (k.proc i).state ≠ .unused) :
    erase (kerneltrapTimer k i) = kerneltrapTimer (erase k) i := by
  have ticked : ((clockintr k (some i)).cfsUpdate.proc i).state ≠ .unused := by
    rw [cfsUpdate_state, clockintr_self]
    exact live
  have counted : erase (clockintr k (some i)).cfsUpdate = (clockintr (erase k) (some i)).cfsUpdate := by
    rw [erase_cfsUpdate, clockintr, erase_wakeup]
    rfl
  unfold kerneltrapTimer kerneltrapTick
  simp only [← counted, erase_proc, eraseProc_state]
  split
  · rw [erase_yield, erase_charge _ _ ticked]
    rw [Kernel.proc_modify_same, Proc.charge_state]
    exact ticked
  · rfl

theorem erase_quantum (trap : Trap) (k : Kernel) (i : Slot) (live : (k.proc i).state ≠ .unused) :
    erase <$> quantum trap k i = quantum trap (erase k) i := by
  cases trap with
  | user =>
    simp only [quantum, erase_proc, eraseProc_live _ live]
    split
    · rw [erase_exit _ _ _ _ (by rw [clockintr_self]; exact live), clockintr, erase_wakeup]
      rfl
    · simp only [Except.map_ok, erase_usertrapTimer k i live]
  | kernel => simp only [quantum, Except.map_ok, erase_kerneltrapTimer k i live]

theorem map_foldlM {m : Type → Type} [Monad m] [LawfulMonad m] {A B : Type} (f : A → A) (step : A → B → m A)
    (comm : ∀ a b, f <$> step a b = step (f a) b) (list : List B) (a : A) :
    f <$> list.foldlM step a = list.foldlM step (f a) := by
  induction list generalizing a with
  | nil => simp
  | cons b list ih =>
    simp only [foldlM_cons, map_bind, ih, ← comm, bind_map_left]

theorem erase_rrVisit (quantum : Kernel → Slot → Except String Kernel)
    (comm : ∀ k i, (k.proc i).state ≠ .unused → erase <$> quantum k i = quantum (erase k) i)
    (out : List Slot × Kernel) (i : Slot) :
    Prod.map id erase <$> rrVisit quantum out i = rrVisit quantum (Prod.map id erase out) i := by
  unfold rrVisit
  simp only [Prod.map_snd, Prod.map_fst, erase_proc, eraseProc_state, id_eq]
  split
  · rename_i ready
    have running := erase_modify_live out.2 i (·.setState .running) (by rw [ready]; decide) (by simp [Proc.setState])
    rw [← running, ← comm _ i (by simp [Proc.setState])]
    simp only [map_bind, bind_map_left, map_pure, Prod.map_apply, id_eq]
  · rfl

theorem erase_dispatch (quantum : Kernel → Slot → Except String Kernel)
    (comm : ∀ k i, (k.proc i).state ≠ .unused → erase <$> quantum k i = quantum (erase k) i)
    (choice : Option Slot × Kernel) (live : ∀ i, choice.1 = some i → (choice.2.proc i).state ≠ .unused) :
    Prod.map id erase <$> dispatch quantum choice = dispatch quantum (Prod.map id erase choice) := by
  obtain ⟨chosen, k⟩ := choice
  cases chosen with
  | none => rfl
  | some i =>
    simp only [dispatch, Prod.map_apply, id_eq]
    rw [← comm k i (live i rfl)]
    simp only [map_bind, bind_map_left, map_pure, Prod.map_apply, id_eq]

theorem switchTo_live (i c : Slot) (chosen : (switchTo k c).1 = some i) :
    ((switchTo k c).2.proc i).state ≠ .unused := by
  unfold switchTo at chosen ⊢
  split at chosen
  · rename_i ready
    obtain rfl := Option.some.inj chosen
    rw [if_pos ready]
    simp [Proc.setState]
  · cases chosen

theorem psChoose_live (chosen : (psChoose k).1 = some i) : ((psChoose k).2.proc i).state ≠ .unused := by
  cases choice : (psScan k slots).minProc with
  | none =>
    rw [psChoose_none k choice] at chosen
    cases chosen
  | some c =>
    rw [psChoose_some k c choice] at chosen ⊢
    exact switchTo_live _ i c chosen

theorem cfsChoose_live (decay : Int) (i : Slot) (chosen : (cfsChoose k decay).1 = some i) :
    ((cfsChoose k decay).2.proc i).state ≠ .unused := by
  unfold cfsChoose at chosen ⊢
  cases choice : (cfsScan k decay slots).minProc with
  | none =>
    rw [choice] at chosen
    cases chosen
  | some c =>
    rw [choice] at chosen
    exact switchTo_live k i c chosen

theorem erase_schedulerPass (quantum : Kernel → Slot → Except String Kernel)
    (comm : ∀ k i, (k.proc i).state ≠ .unused → erase <$> quantum k i = quantum (erase k) i)
    (k : Kernel) (sound : ∀ i, Sound (k.proc i)) (decay decay' : Int) :
    (fun turn => Prod.map id erase turn.1) <$> schedulerPass quantum k decay =
      Prod.fst <$> schedulerPass quantum (erase k) decay' := by
  unfold schedulerPass
  have policy : (erase k).schedPolicy = k.schedPolicy := rfl
  rw [policy]
  split_ifs
  · simp only [Functor.map_map]
    rw [map_foldlM (Prod.map id erase) _ (erase_rrVisit quantum comm)]
    simp
  · simp only [Functor.map_map]
    rw [erase_dispatch quantum comm _ (psChoose_live k), erase_psChoose]
    simp
  · simp only [Functor.map_map]
    rw [erase_dispatch quantum comm _ (cfsChoose_live k decay), erase_cfsChoose k sound decay decay']
    simp
  · rfl

/-- What a process can ask the kernel about scheduling. A pass says how each quantum of it ends; the
copy to user memory of get_cfs_stats succeeds through the page table of the slots that mapped holds of. -/
inductive Query where
  | pass (trap : Slot → Trap)
  | getPsPriority (pid : Int)
  | getCfsStats (add : Nat) (pid : Int) (mapped : Slot → Bool)

inductive Answer where
  | dispatched (order : List Slot)
  | value (result : Int)
  | stats (target : Slot) (cfsPriority rtime stime retime : Int)
  | panic (message : String)
  deriving DecidableEq

/-- get_cfs_stats; a free slot has page table 0, which copyout may only touch past MAXVA. -/
def getCfsStats (k : Kernel) (add : Nat) (pid : Int) (mapped : Slot → Bool) : Answer :=
  match k.findPid pid with
  | none => .value (-1)
  | some i =>
      let p := k.proc i
      if p.state = .unused then
        if MAXVA ≤ add - add % PGSIZE then .value (-1) else .panic "kerneltrap"
      else if mapped i then .stats i p.cfsPriority p.rtime p.stime p.retime
      else .value (-1)

def answers : List Query → Kernel → Int → List Answer
  | [], _, _ => []
  | .pass trap :: queries, k, decay =>
      match schedulerPass (fun k i => quantum (trap i) k i) k decay with
      | .error message => [.panic message]
      | .ok turn => .dispatched turn.1.1 :: answers queries turn.1.2 turn.2
  | .getPsPriority pid :: queries, k, decay => .value (k.sysGetPsPriority pid) :: answers queries k decay
  | .getCfsStats add pid mapped :: queries, k, decay => getCfsStats k add pid mapped :: answers queries k decay

theorem erase_findPid (pid : Int) : (erase k).findPid pid = k.findPid pid := by
  simp only [Kernel.findPid, erase_proc, eraseProc_pid]

theorem erase_findUnused : (erase k).findUnused = k.findUnused := by
  simp only [Kernel.findUnused, erase_proc, eraseProc_state]

theorem erase_getPsPriority (pid : Int) : (erase k).getPsPriority pid = k.getPsPriority pid := by
  simp only [Kernel.getPsPriority, erase_proc, eraseProc_pid]

theorem erase_getCfsStats (add : Nat) (pid : Int) (mapped : Slot → Bool) :
    getCfsStats (erase k) add pid mapped = getCfsStats k add pid mapped := by
  unfold getCfsStats
  rw [erase_findPid]
  cases k.findPid pid with
  | none => rfl
  | some i =>
    by_cases unused : (k.proc i).state = .unused
    · simp only [erase_proc, eraseProc_state, unused, ↓reduceIte]
    · simp only [erase_proc, eraseProc_live _ unused]

variable (k₁ k₂ : Kernel)

theorem alike_live (alike : erase k₁ = erase k₂) (i : Slot) (live : (k₁.proc i).state ≠ .unused) :
    k₁.proc i = k₂.proc i := by
  have slot : eraseProc (k₁.proc i) = eraseProc (k₂.proc i) := congrFun (congrArg Kernel.proc alike) i
  have live₂ : (k₂.proc i).state ≠ .unused := by
    rw [← eraseProc_state, ← slot, eraseProc_state]
    exact live
  rwa [eraseProc_live _ live, eraseProc_live _ live₂] at slot

theorem alike_globals (alike : erase k₁ = erase k₂) :
    k₁.nextpid = k₂.nextpid ∧ k₁.schedPolicy = k₂.schedPolicy ∧ k₁.minAccumulator = k₂.minAccumulator ∧
      k₁.initproc = k₂.initproc := by
  have same := Kernel.ext_iff.mp alike
  exact same.2

theorem eraseProc_freeproc (q : Proc) (unused : q.state = .unused) : eraseProc q.freeproc = (eraseProc q).freeproc := by
  simp [eraseProc, Proc.freeproc, unused]

theorem alike_leftover (alike : erase k₁ = erase k₂) (i : Slot)
    (same : leftover (k₁.proc i) = leftover (k₂.proc i)) : k₁.proc i = k₂.proc i := by
  have slot : eraseProc (k₁.proc i) = eraseProc (k₂.proc i) := congrFun (congrArg Kernel.proc alike) i
  by_cases live : (k₁.proc i).state ≠ .unused
  · exact alike_live k₁ k₂ alike i live
  · have unused : (k₁.proc i).state = .unused := not_not.mp live
    have unused₂ : (k₂.proc i).state = .unused := by
      rw [← eraseProc_state, ← slot, eraseProc_state]
      exact unused
    generalize k₁.proc i = p at *
    generalize k₂.proc i = q at *
    cases p
    cases q
    simp_all [eraseProc, leftover]

/-- The ps_priority a process reads differs only through pid 0, the pid of the free slots. -/
theorem sysGetPsPriority_same (alike : erase k₁ = erase k₂) (sound : ∀ i, Sound (k₁.proc i))
    (zero : ∀ j, k₁.getPsPriority 0 = some j → (k₁.proc j).psPriority = (k₂.proc j).psPriority) (pid : Int) :
    k₁.sysGetPsPriority pid = k₂.sysGetPsPriority pid := by
  have same : k₁.getPsPriority pid = k₂.getPsPriority pid := by
    rw [← erase_getPsPriority k₁, alike, erase_getPsPriority]
  unfold Kernel.sysGetPsPriority
  rw [← same]
  cases found : k₁.getPsPriority pid with
  | none => rfl
  | some i =>
    by_cases unused : (k₁.proc i).state = .unused
    · have pidZero : pid = 0 := (Kernel.getPsPriority_some found).symm.trans ((sound i).unused unused)
      subst pidZero
      exact zero i found
    · exact congrArg Proc.psPriority (alike_live k₁ k₂ alike i unused)

theorem answers_same (queries : List Query) (k₁ k₂ : Kernel) (decay₁ decay₂ : Int) (alike : erase k₁ = erase k₂)
    (sound₁ : ∀ i, Sound (k₁.proc i)) (sound₂ : ∀ i, Sound (k₂.proc i))
    (zero : ∀ j, k₁.getPsPriority 0 = some j → (k₁.proc j).psPriority = (k₂.proc j).psPriority) :
    answers queries k₁ decay₁ = answers queries k₂ decay₂ := by
  induction queries generalizing k₁ k₂ decay₁ decay₂ with
  | nil => rfl
  | cons query queries ih =>
    cases query with
    | getPsPriority pid =>
      simp only [answers, sysGetPsPriority_same k₁ k₂ alike sound₁ zero pid,
        ih k₁ k₂ decay₁ decay₂ alike sound₁ sound₂ zero]
    | getCfsStats add pid mapped =>
      have same : getCfsStats k₁ add pid mapped = getCfsStats k₂ add pid mapped := by
        rw [← erase_getCfsStats k₁, alike, erase_getCfsStats]
      simp only [answers, same, ih k₁ k₂ decay₁ decay₂ alike sound₁ sound₂ zero]
    | pass trap =>
      have comm : ∀ k i, (k.proc i).state ≠ .unused → erase <$> quantum (trap i) k i = quantum (trap i) (erase k) i :=
        fun k i live => erase_quantum (trap i) k i live
      have keeps : ∀ k k' i, quantum (trap i) k i = .ok k' → Kernel.Each Keeps k k' :=
        fun k k' i ended => quantum_keeps (trap i) k k' i ended
      -- Both passes project to the pass over the kernel without leftovers.
      have same := (erase_schedulerPass (fun k i => quantum (trap i) k i) comm k₁ sound₁ decay₁ 0).trans
        ((congrArg (fun k => Prod.fst <$> schedulerPass (fun k i => quantum (trap i) k i) k 0) alike).trans
          (erase_schedulerPass (fun k i => quantum (trap i) k i) comm k₂ sound₂ decay₂ 0).symm)
      simp only [answers]
      cases first : schedulerPass (fun k i => quantum (trap i) k i) k₁ decay₁ with
      | error message =>
        cases second : schedulerPass (fun k i => quantum (trap i) k i) k₂ decay₂ with
        | error message' =>
          simp only [first, second, Except.map_error, Except.error.injEq] at same
          simp only [same]
        | ok turn => simp [first, second] at same
      | ok turn₁ =>
        cases second : schedulerPass (fun k i => quantum (trap i) k i) k₂ decay₂ with
        | error message' => simp [first, second] at same
        | ok turn₂ =>
          simp only [first, second, Except.map_ok, Except.ok.injEq, Prod.map, id_eq, Prod.mk.injEq] at same
          have keeps₁ := schedulerPass_keeps _ keeps k₁ decay₁ turn₁ first
          have keeps₂ := schedulerPass_keeps _ keeps k₂ decay₂ turn₂ second
          have pids : ∀ pid, turn₁.1.2.getPsPriority pid = k₁.getPsPriority pid := fun pid => by
            simp only [Kernel.getPsPriority, (keeps₁ _).pid]
          simp only [same.1]
          rw [ih turn₁.1.2 turn₂.1.2 turn₁.2 turn₂.2 same.2 (fun i => (keeps₁ i).sound (sound₁ i))
            (fun i => (keeps₂ i).sound (sound₂ i))]
          intro j found
          rw [(keeps₁ j).psPriority, (keeps₂ j).psPriority]
          exact zero j (by rw [← pids]; exact found)

theorem fork_keeps_psPriority (memory : ForkMemory) (j : Slot) :
    ((fork k p memory).2.proc j).psPriority = (k.proc j).psPriority := by
  cases free : k.findUnused with
  | none => rw [fork_none k p memory free]
  | some i =>
    rw [fork_some k p i memory free]
    by_cases same : j = i
    · subst same
      split_ifs <;> simp only [Kernel.proc_modify_same] <;> rfl
    · split_ifs <;> simp only [Kernel.proc_modify_other same]

/-- The slot of the child: the first free one, if there is memory. -/
def forkSlot (k : Kernel) (memory : ForkMemory) : Option Slot :=
  if memory.alloc ∧ memory.copy then k.findUnused else none

/-- The pid of a slot after the fork. -/
def forkPid (k : Kernel) (memory : ForkMemory) (i : Slot) : Int :=
  if forkSlot k memory = some i then k.nextpid else (k.proc i).pid

theorem fork_result (p : Slot) (memory : ForkMemory) : (fork k p memory).1 = forkSlot k memory := by
  unfold forkSlot
  cases free : k.findUnused with
  | none => simp [fork_none k p memory free]
  | some i =>
    rw [fork_some k p i memory free]
    split_ifs <;> rfl

theorem fork_pid (sound : ∀ i, Sound (k.proc i)) (p : Slot) (memory : ForkMemory) (j : Slot) :
    ((fork k p memory).2.proc j).pid = forkPid k memory j := by
  unfold forkPid forkSlot
  cases free : k.findUnused with
  | none => simp [fork_none k p memory free]
  | some i =>
    rw [fork_some k p i memory free]
    by_cases same : j = i
    · subst same
      split_ifs <;> simp_all [Proc.freeproc, born, (sound j).unused (k.findUnused_state j free)]
    · have other : i ≠ j := Ne.symm same
      split_ifs <;> simp_all [Kernel.proc_modify_other same]

theorem fork_leftover (p c : Slot) (memory : ForkMemory) (child : forkSlot k memory = some c) :
    leftover ((fork k p memory).2.proc c) = leftover (k.proc c) := by
  obtain ⟨room, free⟩ := Option.ite_none_right_eq_some.mp child
  rw [fork_some k p c memory free, if_pos room, Kernel.proc_modify_same]
  rfl

theorem erase_fork (alike : erase k₁ = erase k₂) (p : Slot) (memory : ForkMemory)
    (level : ∀ c, forkSlot k₁ memory = some c → leftover (k₁.proc c) = leftover (k₂.proc c)) :
    erase (fork k₁ p memory).2 = erase (fork k₂ p memory).2 := by
  have found : k₁.findUnused = k₂.findUnused := by rw [← erase_findUnused k₁, alike, erase_findUnused]
  obtain ⟨nextpid, policy, accumulator, init⟩ := alike_globals k₁ k₂ alike
  cases free : k₁.findUnused with
  | none =>
    rw [fork_none k₁ p memory free, fork_none k₂ p memory (found ▸ free)]
    exact alike
  | some i =>
    rw [forkSlot, free] at level
    rw [fork_some k₁ p i memory free, fork_some k₂ p i memory (found ▸ free)]
    have others : ∀ change₁ change₂ : Proc → Proc,
        eraseProc (change₁ (k₁.proc i)) = eraseProc (change₂ (k₂.proc i)) →
        erase ({ k₁ with nextpid := wrap32 (k₁.nextpid + 1) }.modify i change₁) =
          erase ({ k₂ with nextpid := wrap32 (k₂.nextpid + 1) }.modify i change₂) := by
      intro change₁ change₂ here
      ext1
      · funext j
        by_cases same : j = i
        · subst same
          simp only [erase_proc, Kernel.proc_modify_same]
          exact here
        · simp only [erase_proc, Kernel.proc_modify_other same]
          exact congrFun (congrArg Kernel.proc alike) j
      · exact congrArg (fun n => wrap32 (n + 1)) nextpid
      · exact policy
      · exact accumulator
      · exact init
    split_ifs at level ⊢
    · refine others _ _ ?_
      rw [alike_leftover k₁ k₂ alike i (level i rfl), nextpid]
    · refine others _ _ ?_
      have slot : eraseProc (k₁.proc i) = eraseProc (k₂.proc i) := congrFun (congrArg Kernel.proc alike) i
      rw [eraseProc_freeproc _ (Kernel.findUnused_state k₁ i free), eraseProc_freeproc _ (Kernel.findUnused_state k₂ i (found ▸ free)),
        slot]

theorem fork_same (alike : erase k₁ = erase k₂) (memory : ForkMemory) :
    forkSlot k₁ memory = forkSlot k₂ memory ∧ ∀ j, forkPid k₁ memory j = forkPid k₂ memory j := by
  have found : k₁.findUnused = k₂.findUnused := by rw [← erase_findUnused k₁, alike, erase_findUnused]
  have slot : forkSlot k₁ memory = forkSlot k₂ memory := by rw [forkSlot, forkSlot, found]
  refine ⟨slot, fun j => ?_⟩
  have pid : (k₁.proc j).pid = (k₂.proc j).pid := by
    rw [← eraseProc_pid, ← erase_proc, alike, erase_proc, eraseProc_pid]
  rw [forkPid, forkPid, slot, pid, (alike_globals k₁ k₂ alike).1]

theorem fork_getPsPriority (sound : ∀ i, Sound (k.proc i)) (p : Slot) (memory : ForkMemory) (pid : Int) :
    (fork k p memory).2.getPsPriority pid = slots.reverse.find? fun i => decide (forkPid k memory i = pid) := by
  simp only [Kernel.getPsPriority_eq, fork_pid k sound p memory]

/-- A fork and any scheduling questions after it have the same results in both kernels. -/
def Isolated (k₁ k₂ : Kernel) (p : Slot) (memory : ForkMemory) : Prop :=
  ((fork k₁ p memory).1.map fun c => leftover ((fork k₁ p memory).2.proc c)) =
      ((fork k₂ p memory).1.map fun c => leftover ((fork k₂ p memory).2.proc c)) ∧
    ∀ queries decay, answers queries (fork k₁ p memory).2 decay = answers queries (fork k₂ p memory).2 decay

/-- Two histories that differ only in what they left in free slots are told apart exactly through the slot of the child
and through the last slot that then has pid 0. -/
theorem isolated_iff (k₁ k₂ : Kernel) (reachable₁ : Reachable k₁) (reachable₂ : Reachable k₂)
    (alike : erase k₁ = erase k₂) (p : Slot) (memory : ForkMemory) :
    Isolated k₁ k₂ p memory ↔
      (∀ c, forkSlot k₁ memory = some c → leftover (k₁.proc c) = leftover (k₂.proc c)) ∧
        ∀ j, slots.reverse.find? (fun i => decide (forkPid k₁ memory i = 0)) = some j →
          (k₁.proc j).psPriority = (k₂.proc j).psPriority := by
  have sound₁ := reachable₁.sound k₁
  have sound₂ := reachable₂.sound k₂
  obtain ⟨sameSlot, samePid⟩ := fork_same k₁ k₂ alike memory
  rw [Isolated, fork_result k₁, fork_result k₂]
  constructor
  · rintro ⟨starts, same⟩
    refine ⟨fun c child => ?_, fun j last => ?_⟩
    · have child₂ : forkSlot k₂ memory = some c := sameSlot ▸ child
      simp only [child, child₂, Option.map_some, Option.some.injEq] at starts
      rwa [fork_leftover k₁ p c memory child, fork_leftover k₂ p c memory child₂] at starts
    · have values := same [.getPsPriority 0] 0
      simp only [answers, List.cons.injEq, Answer.value.injEq, and_true, Kernel.sysGetPsPriority,
        fork_getPsPriority k₁ sound₁, fork_getPsPriority k₂ sound₂, ← samePid, last] at values
      rwa [fork_keeps_psPriority, fork_keeps_psPriority] at values
  · rintro ⟨level, zero⟩
    refine ⟨?_, fun queries decay => ?_⟩
    · rw [← sameSlot]
      cases child : forkSlot k₁ memory with
      | none => rfl
      | some c =>
        rw [Option.map_some, Option.map_some, fork_leftover k₁ p c memory child,
          fork_leftover k₂ p c memory (sameSlot ▸ child), level c child]
    · refine answers_same queries _ _ decay decay (erase_fork k₁ k₂ alike p memory level)
        (fun i => fork_sound k₁ p memory i (sound₁ i)) (fun i => fork_sound k₂ p memory i (sound₂ i)) fun j last => ?_
      rw [fork_keeps_psPriority, fork_keeps_psPriority]
      rw [fork_getPsPriority k₁ sound₁] at last
      exact zero j last

/-- init has two children, which do as given and exit, and reaps them. -/
def twoChildren (ops : List Op) : List Op :=
  [.scheduleRr 0, .fork 0 ⟨true, true⟩, .fork 0 ⟨true, true⟩, .scheduleRr 1, .scheduleRr 2] ++ ops ++
    [.exit 1 0 fun _ => 0, .exit 2 0 fun _ => 0, .wait 0 true, .wait 0 true]

def childless (ops : List Op) : Kernel := (history (twoChildren ops) boot).getD boot

theorem childless_reachable (ops : List Op) (performed : (history (twoChildren ops) boot).isSome) :
    Reachable (childless ops) := by
  obtain ⟨k, ran⟩ := Option.isSome_iff_exists.mp performed
  rw [childless, ran]
  exact Reachable.boot.history _ boot k ran

theorem erase_eq (k k' : Kernel) (procs : ∀ i, (erase k).proc i = (erase k').proc i) (globals : k.nextpid = k'.nextpid ∧
    k.schedPolicy = k'.schedPolicy ∧ k.minAccumulator = k'.minAccumulator ∧ k.initproc = k'.initproc) : erase k = erase k' :=
  Kernel.ext_iff.mpr ⟨funext procs, globals⟩

/-- The next child of init gets the slot of the first, and nothing of the second. -/
theorem children_isolated_in_other_slot :
    (fork (childless []) 0 ⟨true, true⟩).1 = some 1 ∧
      ((childless []).proc 2).psPriority ≠ ((childless [.setPsPriority 2 10]).proc 2).psPriority ∧
      Isolated (childless []) (childless [.setPsPriority 2 10]) 0 ⟨true, true⟩ := by
  refine ⟨by decide +kernel, by decide +kernel, (isolated_iff _ _ (childless_reachable _ ?_) (childless_reachable _ ?_)
    (erase_eq _ _ ?_ ?_) 0 ⟨true, true⟩).mpr ⟨?_, ?_⟩⟩ <;> decide +kernel

/-- The next child of init starts with the priority that the first one had set. -/
theorem child_inherits_priority :
    Reachable (childless []) ∧ Reachable (childless [.setPsPriority 1 10]) ∧
      erase (childless []) = erase (childless [.setPsPriority 1 10]) ∧
      ¬Isolated (childless []) (childless [.setPsPriority 1 10]) 0 ⟨true, true⟩ := by
  refine ⟨childless_reachable _ (by decide +kernel), childless_reachable _ (by decide +kernel),
    erase_eq _ _ (by decide +kernel) (by decide +kernel), fun isolated => ?_⟩
  exact absurd isolated.1 (by decide +kernel)

end Xv6.Sched.Reuse
