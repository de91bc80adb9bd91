import Pigeon.Library.Saturation

/-! # The process tree that a job is measured by

The load of a job is mostly that of the `ffmpeg` and `rclone` processes it spawns, so a sample is taken over all live descendants of
the `pigeon` process. Processes end and are reaped at any time: a parent can be missing from the table, and a recycled pid can even
close a cycle of parents.
-/
namespace Pigeon.Observability

open Library

set_option autoImplicit false

abbrev Pid := Nat

/-- One row of the process table; the disk bytes are those since the last refresh. -/
structure Process where
  pid : Pid
  parent : Option Pid
  memory : Nat
  readBytes : Nat
  writtenBytes : Nat
deriving DecidableEq, Repr

/-- A snapshot of the process table, in whatever order the map of the processes is gone through. -/
structure System where
  processes : List Process
  nodup : (processes.map Process.pid).Nodup

namespace System

def process (system : System) (pid : Pid) : Option Process := system.processes.find? fun process => process.pid == pid

def take (ids : Finset Pid) (process : Process) : Finset Pid :=
  if process.pid ∉ ids ∧ process.parent.any (· ∈ ids) then insert process.pid ids else ids

/-- The loop: one pass over the table after the other until a pass finds nothing. -/
def treeIds (system : System) : Nat → Finset Pid → Option (Finset Pid)
  | 0, _ => none
  | fuel + 1, ids =>
    let before := ids.card
    let ids := system.processes.foldl take ids
    if ids.card = before then some ids else system.treeIds fuel ids

/-- The rows of the tree, in no order, as the set of pids has none. -/
def pigeonProcessTree (system : System) (fuel : Nat) (root : Pid) : Option (Multiset Process) :=
  (system.treeIds fuel {root}).map fun ids => ids.val.filterMap system.process

/-- The root, and every live process whose parent is one of the tree. -/
inductive Descends (system : System) (root : Pid) : Pid → Prop where
  | root : Descends system root root
  | child {process : Process} {parent : Pid} (hProcess : process ∈ system.processes) (hParent : process.parent = some parent)
      (hDescends : Descends system root parent) : Descends system root process.pid

def edges (system : System) : List (Pid × Pid) :=
  system.processes.filterMap fun process => process.parent.map fun parent => (parent, process.pid)

variable {system : System}

theorem mem_edges {edge : Pid × Pid} :
    edge ∈ system.edges ↔ ∃ process ∈ system.processes, process.parent = some edge.1 ∧ process.pid = edge.2 := by
  rw [edges, List.mem_filterMap]
  apply exists_congr
  intro process
  apply and_congr_right
  intro _
  rw [Option.map_eq_some_iff]
  constructor
  · rintro ⟨parent, hParent, rfl⟩
    exact ⟨hParent, rfl⟩
  · rintro ⟨hParent, hPid⟩
    exact ⟨edge.1, hParent, Prod.ext rfl hPid⟩

theorem foldl_take (processes : List Process) (ids : Finset Pid) :
    processes.foldl take ids =
      sweep (processes.filterMap fun process => process.parent.map fun parent => (parent, process.pid)) ids := by
  induction processes generalizing ids with
  | nil => rfl
  | cons process processes ih =>
    rw [List.foldl_cons, ih, List.filterMap_cons]
    cases hParent : process.parent with
    | none =>
      have hKept : take ids process = ids := by
        rw [take, hParent]
        exact if_neg fun h => Bool.noConfusion h.2
      rw [hKept]
      rfl
    | some parent =>
      have hTake : take ids process = absorb ids (parent, process.pid) := by
        rw [take, absorb, hParent]
        simp only [Option.any_some, decide_eq_true_eq]
      rw [hTake]
      rfl

theorem treeIds_eq (fuel : Nat) (ids : Finset Pid) : system.treeIds fuel ids = (saturate system.edges fuel ids).map Prod.fst := by
  induction fuel generalizing ids with
  | zero => rfl
  | succ fuel ih =>
    rw [treeIds, saturate]
    simp only [foldl_take]
    change (if (sweep system.edges ids).card = ids.card then _ else _) = _
    split
    · rfl
    · refine (ih _).trans ?_
      rw [Option.map_map]
      rfl

theorem descends_iff {root pid : Pid} : system.Descends root pid ↔ Reaches system.edges {root} pid := by
  constructor
  · intro h
    induction h with
    | root => exact ⟨root, Finset.mem_singleton_self root, .refl⟩
    | child hProcess hParent _ ih =>
      obtain ⟨start, hStart, hPath⟩ := ih
      exact ⟨start, hStart, hPath.tail (mem_edges.mpr ⟨_, hProcess, hParent, rfl⟩)⟩
  · rintro ⟨start, hStart, hPath⟩
    induction hPath with
    | refl =>
      rw [Finset.mem_singleton.mp hStart]
      exact .root
    | tail _ hEdge ih =>
      obtain ⟨process, hProcess, hParent, hPid⟩ := mem_edges.mp hEdge
      subst hPid
      exact .child hProcess hParent ih

theorem process_eq_some {pid : Pid} {process : Process} :
    system.process pid = some process ↔ process ∈ system.processes ∧ process.pid = pid := by
  have hFind : ∀ found, system.process pid = some found → found ∈ system.processes ∧ found.pid = pid := by
    intro found hFound
    have hPid := List.find?_some hFound
    exact ⟨List.mem_of_find?_eq_some hFound, beq_iff_eq.mp hPid⟩
  refine ⟨hFind process, ?_⟩
  rintro ⟨hProcess, hPid⟩
  cases hFound : system.process pid with
  | none =>
    have hMissing := List.find?_eq_none.mp hFound process hProcess
    exact absurd (beq_iff_eq.mpr hPid) hMissing
  | some other =>
    obtain ⟨hOther, hOtherPid⟩ := hFind other hFound
    rw [List.inj_on_of_nodup_map system.nodup hOther hProcess (hOtherPid.trans hPid.symm)]

theorem nodup_filterMap_process (ids : Finset Pid) : (ids.val.filterMap system.process).Nodup := by
  apply ids.nodup.filterMap
  intro pid other process hProcess hOther
  rw [← (process_eq_some.mp hProcess).2, ← (process_eq_some.mp hOther).2]

/-- For every table, in every order of its rows, the passes end after at most one for each row and one more, and
the tree holds each live descendant of the root once and nothing else. -/
theorem pigeonProcessTree_spec (system : System) (root : Pid) :
    ∃ tree, system.pigeonProcessTree (system.processes.length + 1) root = some tree ∧ tree.Nodup ∧
      ∀ process, process ∈ tree ↔ process ∈ system.processes ∧ system.Descends root process.pid := by
  have hEdges : system.edges.length ≤ system.processes.length := List.length_filterMap_le _ _
  have hMissing : (targets system.edges \ {root}).card < system.processes.length + 1 :=
    Nat.lt_succ_of_le ((card_targets_sdiff_le system.edges {root}).trans hEdges)
  obtain ⟨⟨ids, passes⟩, hResult, -, hMem⟩ := saturate_spec hMissing
  refine ⟨ids.val.filterMap system.process, ?_, nodup_filterMap_process ids, fun process => ?_⟩
  · rw [pigeonProcessTree, treeIds_eq, hResult]
    rfl
  · rw [Multiset.mem_filterMap]
    constructor
    · rintro ⟨pid, hPid, hProcess⟩
      obtain ⟨hLive, rfl⟩ := process_eq_some.mp hProcess
      exact ⟨hLive, descends_iff.mpr ((hMem process.pid).mp hPid)⟩
    · rintro ⟨hLive, hDescends⟩
      exact ⟨process.pid, (hMem process.pid).mpr (descends_iff.mp hDescends), process_eq_some.mpr ⟨hLive, rfl⟩⟩

end System

/-- The gauge and the two counters that the sampler keeps. -/
structure Counters where
  memory : Nat := 0
  readBytes : Nat := 0
  writtenBytes : Nat := 0
deriving DecidableEq, Repr

/-- One tick of the sampler. -/
def Counters.sample (root : Pid) (counters : Counters) (system : System) : Counters :=
  match system.pigeonProcessTree (system.processes.length + 1) root with
  | none => counters
  | some processes =>
    if processes = 0 then counters
    else
      { memory := (processes.map Process.memory).sum
        readBytes := counters.readBytes + (processes.map Process.readBytes).sum
        writtenBytes := counters.writtenBytes + (processes.map Process.writtenBytes).sum }

open scoped Classical in
/-- The rows of the root and its descendants. -/
noncomputable def System.liveTree (system : System) (root : Pid) : Multiset Process :=
  ↑(system.processes.filter fun process => system.Descends root process.pid)

theorem System.pigeonProcessTree_eq (system : System) (root : Pid) :
    system.pigeonProcessTree (system.processes.length + 1) root = some (system.liveTree root) := by
  obtain ⟨tree, hTree, hNodup, hMem⟩ := system.pigeonProcessTree_spec root
  rw [hTree]
  congr 1
  refine (Multiset.Nodup.ext hNodup (Multiset.coe_nodup.mpr (system.nodup.of_map _ |>.filter _))).mpr fun process => ?_
  rw [hMem]
  simp only [Multiset.mem_coe, List.mem_filter, decide_eq_true_eq]

theorem Counters.sample_eq (root : Pid) (counters : Counters) (system : System) :
    (counters.sample root system).readBytes = counters.readBytes + ((system.liveTree root).map Process.readBytes).sum ∧
      (counters.sample root system).writtenBytes = counters.writtenBytes + ((system.liveTree root).map Process.writtenBytes).sum := by
  rw [sample, system.pigeonProcessTree_eq root]
  dsimp only
  split
  · rename_i hEmpty
    rw [hEmpty, Multiset.map_zero, Multiset.map_zero, Multiset.sum_zero]
    exact ⟨rfl, rfl⟩
  · exact ⟨rfl, rfl⟩

end Pigeon.Observability
