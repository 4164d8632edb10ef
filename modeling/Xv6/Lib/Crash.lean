import Mathlib

/-! Programs that write a disk and can lose power between two writes. The
machine carries the number of writes it may still perform, so a crash point is
an ordinary input of a run. -/

namespace Xv6.Lib.Crash

open List

inductive Halt where
  | powerLoss
  | panic (message : String)
  deriving DecidableEq, Repr

/-- A disk, the memory lost with the power, the writes that took effect in order,
and the number of further writes before the power fails. -/
structure Machine (A V S : Type) where
  disk : A → V
  memory : S
  issued : List (A × V)
  power : Option Nat

abbrev Prog (A V S α : Type) := EStateM Halt (Machine A V S) α

variable {A V S α β : Type} [DecidableEq A]

def diskWrite (address : A) (value : V) : Prog A V S Unit := fun m =>
  match m.power with
  | some 0 => .error .powerLoss m
  | power => .ok () { m with disk := Function.update m.disk address value,
                             issued := m.issued ++ [(address, value)],
                             power := power.map (· - 1) }

def diskRead (address : A) : Prog A V S V := fun m => .ok (m.disk address) m

def modifyMemory (change : S → S) : Prog A V S Unit := fun m => .ok () { m with memory := change m.memory }

def getMemory : Prog A V S S := fun m => .ok m.memory m

def replay : List (A × V) → (A → V) → A → V
  | [], disk => disk
  | (address, value) :: rest, disk => replay rest (Function.update disk address value)

theorem replay_append (first second : List (A × V)) (disk : A → V) :
    replay (first ++ second) disk = replay second (replay first disk) := by
  induction first generalizing disk with
  | nil => rfl
  | cons entry first ih => exact ih _

theorem replay_untouched (writes : List (A × V)) (disk : A → V) (address : A)
    (untouched : ∀ entry ∈ writes, entry.1 ≠ address) : replay writes disk address = disk address := by
  induction writes generalizing disk with
  | nil => rfl
  | cons entry rest ih =>
    have first := untouched entry (by simp)
    rw [replay, ih _ (fun other member => untouched other (by simp [member]))]
    exact Function.update_of_ne first.symm _ _

theorem replay_listed (writes : List (A × V)) (disk : A → V) (distinct : (writes.map Prod.fst).Nodup)
    (entry : A × V) (member : entry ∈ writes) : replay writes disk entry.1 = entry.2 := by
  induction writes generalizing disk with
  | nil => simp at member
  | cons head rest ih =>
    simp only [map_cons, nodup_cons] at distinct
    rcases mem_cons.mp member with same | later
    · subst same
      rw [replay, replay_untouched]
      · exact Function.update_self _ _ _
      · intro other present equal
        exact distinct.1 (equal ▸ mem_map_of_mem present)
    · exact ih _ distinct.2 later

/-- The program performs exactly these writes and ends in this memory, unless the
power fails first, in which case a prefix of the writes took effect. -/
def Emits (prog : Prog A V S α) (memory : S) (disk : A → V) (writes : List (A × V)) (result : α)
    (memory' : S) : Prop :=
  ∀ issued power,
    ((∀ k, power = some k → writes.length ≤ k) →
      prog ⟨disk, memory, issued, power⟩ =
        .ok result ⟨replay writes disk, memory', issued ++ writes, power.map (· - writes.length)⟩) ∧
    (∀ k, power = some k → k < writes.length →
      ∃ lost, prog ⟨disk, memory, issued, power⟩ =
        .error .powerLoss ⟨replay (writes.take k) disk, lost, issued ++ writes.take k, some 0⟩)

theorem Emits.pure (result : α) (memory : S) (disk : A → V) :
    Emits (pure result : Prog A V S α) memory disk [] result memory := by
  intro issued power
  refine ⟨fun _ => ?_, fun k _ short => by simp at short⟩
  cases power <;> simp [replay, Pure.pure, EStateM.pure]

theorem Emits.modifyMemory (change : S → S) (memory : S) (disk : A → V) :
    Emits (modifyMemory change : Prog A V S Unit) memory disk [] () (change memory) := by
  intro issued power
  refine ⟨fun _ => ?_, fun k _ short => by simp at short⟩
  cases power <;> simp [replay, Crash.modifyMemory]

theorem Emits.getMemory (memory : S) (disk : A → V) :
    Emits (getMemory : Prog A V S S) memory disk [] memory memory := by
  intro issued power
  refine ⟨fun _ => ?_, fun k _ short => by simp at short⟩
  cases power <;> simp [replay, Crash.getMemory]

theorem Emits.diskRead (address : A) (memory : S) (disk : A → V) :
    Emits (diskRead address : Prog A V S V) memory disk [] (disk address) memory := by
  intro issued power
  refine ⟨fun _ => ?_, fun k _ short => by simp at short⟩
  cases power <;> simp [replay, Crash.diskRead]

theorem Emits.diskWrite (address : A) (value : V) (memory : S) (disk : A → V) :
    Emits (diskWrite address value : Prog A V S Unit) memory disk [(address, value)] () memory := by
  intro issued power
  constructor
  · intro enough
    cases power with
    | none => rfl
    | some k =>
      have positive : 1 ≤ k := enough k rfl
      obtain ⟨k, rfl⟩ : ∃ j, k = j + 1 := ⟨k - 1, by omega⟩
      rfl
  · intro k powered short
    have zero : k = 0 := by simpa using short
    subst powered zero
    exact ⟨memory, by simp [Crash.diskWrite, replay]⟩

omit [DecidableEq A] in
theorem bind_run (first : Prog A V S α) (next : α → Prog A V S β) (m : Machine A V S) :
    (first >>= next) m = match first m with
      | .ok a m' => next a m'
      | .error e m' => .error e m' := by
  simp only [Bind.bind, EStateM.bind]
  cases first m <;> rfl

variable {disk : A → V}

theorem Emits.bind {first : Prog A V S α} {next : α → Prog A V S β} {memory memory' memory'' : S}
    {writes more : List (A × V)} {middle : α} {result : β}
    (head : Emits first memory disk writes middle memory')
    (tail : Emits (next middle) memory' (replay writes disk) more result memory'') :
    Emits (first >>= next) memory disk (writes ++ more) result memory'' := by
  intro issued power
  constructor
  · intro enough
    have firstRun := (head issued power).1 (fun k powered => by
      have total := enough k powered
      simp only [length_append] at total
      omega)
    have nextRun := (tail (issued ++ writes) (power.map (· - writes.length))).1 (by
      intro k powered
      cases power with
      | none => simp at powered
      | some j =>
        have total := enough j rfl
        simp only [Option.map_some, Option.some.injEq] at powered
        simp only [length_append] at total
        omega)
    rw [bind_run, firstRun]
    simp only [nextRun, replay_append, append_assoc]
    cases power with
    | none => rfl
    | some j => simp [Nat.sub_sub]
  · intro k powered short
    by_cases early : k < writes.length
    · obtain ⟨lost, crash⟩ := (head issued power).2 k powered early
      refine ⟨lost, ?_⟩
      rw [bind_run, crash, take_append_of_le_length early.le]
    · have late : writes.length ≤ k := by omega
      have firstRun := (head issued power).1 (fun j same => by
        rw [powered, Option.some.injEq] at same
        omega)
      rw [powered] at firstRun ⊢
      obtain ⟨lost, crash⟩ := (tail (issued ++ writes) (some (k - writes.length))).2 (k - writes.length) rfl (by
        simp only [length_append] at short
        omega)
      refine ⟨lost, ?_⟩
      rw [bind_run, firstRun]
      simp only [Option.map_some, crash, take_append, take_of_length_le late, replay_append,
        append_assoc]

variable {writes : List (A × V)}

theorem Emits.quiet {first : Prog A V S α} {next : α → Prog A V S β} {memory memory' memory'' : S}
    {middle : α} {result : β}
    (head : Emits first memory disk [] middle memory')
    (tail : Emits (next middle) memory' disk writes result memory'') :
    Emits (first >>= next) memory disk writes result memory'' :=
  Emits.bind head tail

def final : EStateM.Result Halt (Machine A V S) α → Machine A V S
  | .ok _ m => m
  | .error _ m => m

theorem Emits.final_cut {prog : Prog A V S α} {memory memory' : S}
    {result : α} (emits : Emits prog memory disk writes result memory') (issued : List (A × V)) (k : Nat) :
    (final (prog ⟨disk, memory, issued, some k⟩)).disk = replay (writes.take k) disk ∧
      (final (prog ⟨disk, memory, issued, some k⟩)).issued = issued ++ writes.take k := by
  by_cases short : k < writes.length
  · obtain ⟨lost, crash⟩ := (emits issued (some k)).2 k rfl short
    rw [crash]
    exact ⟨rfl, rfl⟩
  · have long : writes.length ≤ k := by omega
    have run := (emits issued (some k)).1 (fun j same => by
      rw [Option.some.injEq] at same
      omega)
    rw [run, take_of_length_le long]
    exact ⟨rfl, rfl⟩

theorem Emits.completes {prog : Prog A V S α} {memory memory' : S}
    {result : α} (emits : Emits prog memory disk writes result memory') (issued : List (A × V)) :
    ∃ m, prog ⟨disk, memory, issued, none⟩ = .ok result m ∧ m.disk = replay writes disk :=
  ⟨_, (emits issued none).1 (fun _ impossible => by cases impossible), rfl⟩

end Xv6.Lib.Crash
