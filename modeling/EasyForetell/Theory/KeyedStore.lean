import Mathlib.Data.List.Dedup
import Mathlib.Data.List.Perm.Basic
import Mathlib.Logic.Function.Basic
import Mathlib.Tactic.Common

/-!
# Programs on a store of records

A store maps keys to records. Several programs delete and set records in it, their
operations interleaved in any way. What a key holds at the end is what the last operation
on it left, so a program that works on one key only might as well have run at the moment of
its last operation: the interleaving is as good as some serial order of the programs.

## Main results

* `runOps_apply`: what a key holds behind a sequence of operations
* `runOps_history`: an interleaving of programs on single keys is serial
* `exists_serial`: so is one in which some programs did nothing
* `runOps_perm`: when the order of the programs does not matter
-/

namespace EasyForetell.Theory

/-- An operation on a store. -/
inductive StoreOp (κ ν : Type*)
  | delete (key : κ)
  | set (key : κ) (value : ν)
  deriving DecidableEq

namespace StoreOp

variable {κ ν ι : Type*}

/-- The key an operation is about. -/
def key : StoreOp κ ν → κ
  | delete key => key
  | set key _ => key

/-- What the operation leaves under its key. -/
def record : StoreOp κ ν → Option ν
  | delete _ => none
  | set _ value => some value

/-! ### One program in an interleaving -/

section Programs

variable [DecidableEq ι] {history : List (ι × StoreOp κ ν)}

/-- What one program did in an interleaving. -/
def programOf (i : ι) (history : List (ι × StoreOp κ ν)) : List (StoreOp κ ν) :=
  (history.filter fun entry => entry.1 = i).map Prod.snd

theorem programOf_cons_self (i : ι) (op : StoreOp κ ν) (history : List (ι × StoreOp κ ν)) :
    programOf i ((i, op) :: history) = op :: programOf i history := by
  simp [programOf]

theorem programOf_cons_of_ne {i j : ι} (hother : j ≠ i) (op : StoreOp κ ν)
    (history : List (ι × StoreOp κ ν)) :
    programOf i ((j, op) :: history) = programOf i history := by
  simp [programOf, hother]

theorem mem_programOf {i : ι} {op : StoreOp κ ν} :
    op ∈ programOf i history ↔ (i, op) ∈ history := by
  simp [programOf]

theorem programOf_eq_nil {i : ι} (habsent : i ∉ history.map Prod.fst) :
    programOf i history = [] := by
  rw [List.eq_nil_iff_forall_not_mem]
  intro op hop
  exact habsent (List.mem_map_of_mem (mem_programOf.mp hop))

theorem programOf_append (i : ι) (history later : List (ι × StoreOp κ ν)) :
    programOf i (history ++ later) = programOf i history ++ programOf i later := by
  rw [programOf, List.filter_append, List.map_append]
  rfl

theorem programOf_map_self (i : ι) (ops : List (StoreOp κ ν)) :
    programOf i (ops.map (i, ·)) = ops := by
  induction ops with
  | nil => rfl
  | cons op ops ih => rw [List.map_cons, programOf_cons_self, ih]

theorem programOf_map_of_ne {i j : ι} (hother : j ≠ i) (ops : List (StoreOp κ ν)) :
    programOf i (ops.map (j, ·)) = [] := by
  induction ops with
  | nil => rfl
  | cons op ops ih => rw [List.map_cons, programOf_cons_of_ne hother, ih]

end Programs

/-! ### What a key holds -/

variable [DecidableEq κ] {k : κ} {ops : List (StoreOp κ ν)}

/-- The store after an operation. -/
def apply (store : κ → Option ν) (op : StoreOp κ ν) : κ → Option ν :=
  Function.update store op.key op.record

/-- The store after a sequence of operations. -/
def runOps (store : κ → Option ν) (ops : List (StoreOp κ ν)) : κ → Option ν :=
  ops.foldl apply store

/-- The last operation on a key. -/
def lastOn (k : κ) (ops : List (StoreOp κ ν)) : Option (StoreOp κ ν) :=
  (ops.filter fun op => op.key = k).getLast?

theorem runOps_append (store : κ → Option ν) (ops later : List (StoreOp κ ν)) :
    runOps store (ops ++ later) = runOps (runOps store ops) later :=
  List.foldl_append

theorem lastOn_append (k : κ) (ops later : List (StoreOp κ ν)) :
    lastOn k (ops ++ later) = (lastOn k later).or (lastOn k ops) := by
  rw [lastOn, List.filter_append, List.getLast?_append]
  rfl

/-- An operation is the last on its key until another follows. -/
theorem lastOn_cons (k : κ) (op : StoreOp κ ν) (ops : List (StoreOp κ ν)) :
    lastOn k (op :: ops) = (lastOn k ops).or (if op.key = k then some op else none) := by
  rw [← List.singleton_append, lastOn_append]
  congr 1
  rw [lastOn, List.filter_singleton]
  by_cases hkey : op.key = k
  · simp [hkey]
  · simp [hkey]

theorem lastOn_eq_none_iff : lastOn k ops = none ↔ ∀ op ∈ ops, op.key ≠ k := by
  rw [lastOn, List.getLast?_eq_none_iff, List.filter_eq_nil_iff]
  simp

theorem mem_of_lastOn {op : StoreOp κ ν} (hlast : lastOn k ops = some op) :
    op ∈ ops ∧ op.key = k := by
  have hmem := List.mem_of_getLast? hlast
  simpa using hmem

/-- An operation that another on the same key follows is the last on no key. -/
theorem lastOn_cons_of_overwritten {op : StoreOp κ ν} (hlater : ∃ op' ∈ ops, op'.key = op.key)
    (k : κ) : lastOn k (op :: ops) = lastOn k ops := by
  rw [lastOn_cons]
  by_cases hkey : op.key = k
  · cases hlast : lastOn k ops with
    | some last => rfl
    | none =>
      obtain ⟨op', hop', hsame⟩ := hlater
      exact absurd (hsame.trans hkey) (lastOn_eq_none_iff.mp hlast op' hop')
  · rw [if_neg hkey, Option.or_none]

/-- A key holds what the last operation on it left. -/
theorem runOps_apply (store : κ → Option ν) (ops : List (StoreOp κ ν)) (k : κ) :
    runOps store ops k = ((lastOn k ops).map record).getD (store k) := by
  induction ops generalizing store with
  | nil => rfl
  | cons op ops ih =>
    rw [runOps, List.foldl_cons, ← runOps, ih, lastOn_cons]
    cases lastOn k ops with
    | some last => rfl
    | none =>
      by_cases hkey : op.key = k
      · subst hkey
        simp [apply]
      · simp [apply, hkey, Function.update_of_ne (Ne.symm hkey)]

/-- Two sequences with the same last operations leave the same store. -/
theorem runOps_congr {others : List (StoreOp κ ν)}
    (hlast : ∀ k, (lastOn k ops).map record = (lastOn k others).map record)
    (store : κ → Option ν) : runOps store ops = runOps store others := by
  funext k
  rw [runOps_apply, runOps_apply, hlast]

/-! ### Programs one after another -/

section Serial

variable {order order' : List ι} {program program' : ι → List (StoreOp κ ν)}

/-- The last operation on a key is that of the last program that has one. -/
theorem lastOn_flatMap_congr (hsame : ∀ i ∈ order, lastOn k (program i) = lastOn k (program' i)) :
    lastOn k (order.flatMap program) = lastOn k (order.flatMap program') := by
  induction order with
  | nil => rfl
  | cons i order ih =>
    obtain ⟨hfirst, hrest⟩ := List.forall_mem_cons.mp hsame
    rw [List.flatMap_cons, List.flatMap_cons, lastOn_append, lastOn_append, hfirst, ih hrest]

theorem exists_lastOn_of_flatMap {op : StoreOp κ ν}
    (hlast : lastOn k (order.flatMap program) = some op) :
    ∃ i ∈ order, lastOn k (program i) = some op := by
  induction order with
  | nil => cases hlast
  | cons i order ih =>
    rw [List.flatMap_cons, lastOn_append] at hlast
    cases hrest : lastOn k (order.flatMap program) with
    | none =>
      rw [hrest, Option.none_or] at hlast
      exact ⟨i, List.mem_cons_self, hlast⟩
    | some last =>
      rw [hrest, Option.some_or] at hlast
      obtain ⟨j, hj, hprogram⟩ := ih (hrest.trans hlast)
      exact ⟨j, List.mem_cons_of_mem i hj, hprogram⟩

/-- Programs that agree on what they leave under a key may run in any order. -/
theorem runOps_perm (hperm : order.Perm order')
    (hagree : ∀ i ∈ order, ∀ j ∈ order, ∀ k op op', lastOn k (program i) = some op →
      lastOn k (program j) = some op' → op.record = op'.record) (store : κ → Option ν) :
    runOps store (order.flatMap program) = runOps store (order'.flatMap program) := by
  refine runOps_congr (fun k => ?_) store
  have hops := hperm.flatMap_right program
  cases hlast : lastOn k (order.flatMap program) with
  | none =>
    rw [lastOn_eq_none_iff] at hlast
    have hother : lastOn k (order'.flatMap program) = none :=
      lastOn_eq_none_iff.mpr fun op hop => hlast op (hops.mem_iff.mpr hop)
    rw [hother]
  | some op =>
    -- the other order has an operation on the key too
    cases hother : lastOn k (order'.flatMap program) with
    | none =>
      rw [lastOn_eq_none_iff] at hother
      obtain ⟨hmem, hkey⟩ := mem_of_lastOn hlast
      exact absurd hkey (hother op (hops.mem_iff.mp hmem))
    | some op' =>
      obtain ⟨i, hi, hfirst⟩ := exists_lastOn_of_flatMap hlast
      obtain ⟨j, hj, hsecond⟩ := exists_lastOn_of_flatMap hother
      exact congrArg some (hagree i hi j (hperm.mem_iff.mpr hj) k op op' hfirst hsecond)

end Serial

/-! ### Interleavings -/

section Interleaving

variable [DecidableEq ι] {history : List (ι × StoreOp κ ν)}

/-- Programs on single keys, interleaved in any way, leave what they leave when each runs
as a whole at the moment of its last operation. -/
theorem runOps_history (hkeys : ∀ i, ∀ op ∈ programOf i history, ∀ op' ∈ programOf i history,
      op.key = op'.key) (store : κ → Option ν) :
    runOps store (history.map Prod.snd) =
      runOps store ((history.map Prod.fst).dedup.flatMap fun i => programOf i history) := by
  induction history generalizing store with
  | nil => rfl
  | cons entry history ih =>
    obtain ⟨i, op⟩ := entry
    have hlater : ∀ j, ∀ o ∈ programOf j history, o ∈ programOf j ((i, op) :: history) := by
      intro j o ho
      exact mem_programOf.mpr (List.mem_cons_of_mem _ (mem_programOf.mp ho))
    have hrest := ih (fun j o ho o' ho' => hkeys j o (hlater j o ho) o' (hlater j o' ho'))
      (apply store op)
    rw [List.map_cons, List.map_cons, runOps, List.foldl_cons, ← runOps, hrest]
    change runOps store (op :: _) = _
    by_cases hagain : i ∈ history.map Prod.fst
    · -- the program goes on later, on the same key: what it does here is overwritten
      rw [List.dedup_cons_of_mem hagain]
      obtain ⟨⟨j, op'⟩, hmem, hj⟩ := List.mem_map.mp hagain
      obtain rfl : j = i := hj
      have hop' := mem_programOf.mpr hmem
      have hself : op ∈ programOf j ((j, op) :: history) := by
        rw [programOf_cons_self]
        exact List.mem_cons_self
      have hkey : op'.key = op.key := hkeys j op' (hlater j op' hop') op hself
      refine runOps_congr (fun k => congrArg (Option.map record) ?_) store
      have hprograms : ∀ i ∈ (history.map Prod.fst).dedup,
          lastOn k (programOf i ((j, op) :: history)) = lastOn k (programOf i history) := by
        intro i _
        by_cases hi : j = i
        · subst hi
          rw [programOf_cons_self, lastOn_cons_of_overwritten ⟨op', hop', hkey⟩]
        · rw [programOf_cons_of_ne hi]
      rw [lastOn_flatMap_congr hprograms]
      refine lastOn_cons_of_overwritten ⟨op', ?_, hkey⟩ k
      exact List.mem_flatMap.mpr ⟨j, List.mem_dedup.mpr hagain, hop'⟩
    · -- the program is through: its only operation stays where it is
      rw [List.dedup_cons_of_notMem hagain, List.flatMap_cons, programOf_cons_self,
        programOf_eq_nil hagain]
      refine congrArg (fun ops => runOps store (op :: ops)) ?_
      refine List.flatMap_congr fun j hj => ?_
      rw [programOf_cons_of_ne]
      rintro rfl
      exact hagain (List.mem_dedup.mp hj)

/-- The programs of an interleaving have a serial order, those included that did nothing. -/
theorem exists_serial (hkeys : ∀ i, ∀ op ∈ programOf i history, ∀ op' ∈ programOf i history,
      op.key = op'.key) {names : List ι} (hnames : names.Nodup)
    (hall : ∀ entry ∈ history, entry.1 ∈ names) :
    ∃ order : List ι, order.Perm names ∧ ∀ store : κ → Option ν,
      runOps store (history.map Prod.snd) =
        runOps store (order.flatMap fun i => programOf i history) := by
  have hmem : ∀ i, i ∈ history.map Prod.fst → i ∈ names := by
    intro i hi
    obtain ⟨entry, hentry, rfl⟩ := List.mem_map.mp hi
    exact hall entry hentry
  refine ⟨names.filter (fun i => i ∉ history.map Prod.fst) ++ (history.map Prod.fst).dedup,
    ?_, fun store => ?_⟩
  · rw [List.perm_ext_iff_of_nodup ?_ hnames]
    · intro i
      simp only [List.mem_append, List.mem_filter, List.mem_dedup, decide_not, Bool.not_eq_true',
        decide_eq_false_iff_not]
      exact ⟨fun h => h.elim And.left (hmem i), fun hi => (em _).symm.imp_left (And.intro hi)⟩
    · refine List.nodup_append.mpr ⟨hnames.filter _, List.nodup_dedup _, ?_⟩
      intro i hidle j hj hsame
      have := (List.mem_filter.mp hidle).2
      rw [hsame] at this
      simp [List.mem_dedup.mp hj] at this
  · -- a program that did nothing may run first
    have hidle : (names.filter fun i => i ∉ history.map Prod.fst).flatMap
        (fun i => programOf i history) = [] := by
      rw [List.flatMap_eq_nil_iff]
      intro i hi
      exact programOf_eq_nil (by simpa using (List.mem_filter.mp hi).2)
    rw [List.flatMap_append, hidle, List.nil_append]
    exact runOps_history hkeys store

end Interleaving

end StoreOp

end EasyForetell.Theory
