import EasyForetell.Progress
import EasyForetell.Service

/-!
# What the cache holds (queral.c, worker_thread)

The workers delete and store records between each other's steps and with no lock, so two
jobs for one page mix. A job works on the one key of its line, though, and that is enough:
whenever no worker has a job, the cache is what the lines handed out leave one after
another in some order.

## Main results

* `cache_serializable`: the jobs of all workers are serial
* `cache_holds_pages`: where the records of the cache come from
* `cache_determined_by_lines`: when every URL has one answer, the order does not matter
-/

namespace EasyForetell

open Memory Theory

section Units

variable {settings : Settings} {unit : CacheUnit}

/-- A unit works on one key. -/
theorem key_eq_of_mem_ops {op op' : CacheOp} (hop : op ∈ unit.ops settings)
    (hop' : op' ∈ unit.ops settings) : op.key = op'.key := by
  cases unit with
  | job line responses carried =>
    exact (key_of_mem_lineOps hop).2.trans (key_of_mem_lineOps hop').2.symm
  | other other => rw [List.mem_singleton.mp hop, List.mem_singleton.mp hop']

theorem filterMap_getElem?_range (units : List CacheUnit) :
    (List.range units.length).filterMap (fun n => units[n]?) = units := by
  induction units with
  | nil => rfl
  | cons unit units ih =>
    rw [List.length_cons, List.range_succ_eq_map, List.filterMap_cons, List.filterMap_map]
    exact congrArg (unit :: ·) ih

/-- The units of a list of numbers do what their programs do. -/
theorem flatMap_filterMap_units {units : List CacheUnit} {program : ℕ → List CacheOp}
    {order : List ℕ} (hprogram : ∀ n ∈ order, ∃ unit, units[n]? = some unit ∧
      program n = unit.ops settings) :
    order.flatMap program =
      (order.filterMap fun n => units[n]?).flatMap (CacheUnit.ops settings) := by
  induction order with
  | nil => rfl
  | cons n order ih =>
    obtain ⟨⟨unit, hunit, hops⟩, hrest⟩ := List.forall_mem_cons.mp hprogram
    rw [List.flatMap_cons, List.filterMap_cons, hunit, ih hrest, hops, List.flatMap_cons]

end Units

namespace Service

variable {settings : Settings} {workersCount : ℕ} {malloc : ℕ → Block} {capacity : ℕ}
  {cache : Cache} {s : Service workersCount}

/-- What the history has of a unit is part of what the unit does. -/
theorem Recorded.exists_unit (h : s.Recorded settings cache) {entry : ℕ × CacheOp}
    (hentry : entry ∈ s.history) : ∃ unit ∈ s.units, entry.2 ∈ unit.ops settings := by
  have hinside := h.numbered entry hentry
  have hmem : entry.2 ∈ StoreOp.programOf entry.1 s.history := StoreOp.mem_programOf.mpr hentry
  by_cases hbusy : ∃ i, s.Busy i ∧ (s.plans i).job = entry.1
  · obtain ⟨i, hi, hjob⟩ := hbusy
    obtain ⟨unit, hunit, hops⟩ := h.busy i hi
    refine ⟨unit, List.mem_of_getElem? hunit, ?_⟩
    rw [← hops, hjob]
    exact List.mem_append_left _ hmem
  · push Not at hbusy
    have hunit := List.getElem?_eq_getElem hinside
    refine ⟨s.units[entry.1], List.getElem_mem hinside, ?_⟩
    rw [← h.done entry.1 _ hunit hbusy]
    exact hmem

/-- When no worker has a job, every unit is done. -/
theorem Recorded.program_eq (h : s.Recorded settings cache) (hidle : ∀ i, ¬ s.Busy i) {n : ℕ}
    (hn : n < s.units.length) : ∃ unit, s.units[n]? = some unit ∧
      StoreOp.programOf n s.history = unit.ops settings := by
  have hunit := List.getElem?_eq_getElem hn
  exact ⟨s.units[n], hunit, h.done n _ hunit fun i hi => absurd hi (hidle i)⟩

/-- When no worker has a job, the history is as good as some serial order of the units. -/
theorem Recorded.exists_order (h : s.Recorded settings cache) (hidle : ∀ i, ¬ s.Busy i) :
    ∃ order : List CacheUnit, order.Perm s.units ∧
      s.cache = StoreOp.runOps cache (order.flatMap (CacheUnit.ops settings)) := by
  have hkeys : ∀ n, ∀ op ∈ StoreOp.programOf n s.history, ∀ op' ∈ StoreOp.programOf n s.history,
      op.key = op'.key := by
    intro n op hop op' hop'
    have hn := h.numbered _ (StoreOp.mem_programOf.mp hop)
    obtain ⟨unit, -, hops⟩ := h.program_eq hidle hn
    rw [hops] at hop hop'
    exact key_eq_of_mem_ops hop hop'
  obtain ⟨order, hperm, hserial⟩ := StoreOp.exists_serial hkeys List.nodup_range
    (fun entry hentry => List.mem_range.mpr (h.numbered entry hentry))
  have hprogram : ∀ n ∈ order, ∃ unit, s.units[n]? = some unit ∧
      StoreOp.programOf n s.history = unit.ops settings :=
    fun n hn => h.program_eq hidle (List.mem_range.mp (hperm.mem_iff.mp hn))
  refine ⟨order.filterMap fun n => s.units[n]?, ?_, ?_⟩
  · have hall := hperm.filterMap fun n => s.units[n]?
    rwa [filterMap_getElem?_range] at hall
  · rw [h.cache_eq, hserial cache, flatMap_filterMap_units hprogram]

end Service

/-- The service of one worker, with an empty cache. -/
def exampleService : Service 1 :=
  .fresh (.fresh (.fresh 1 (fun _ => List.replicate bufferSize 0) 1 fun _ => [0]))
    (fun _ => exampleWorker) fun _ => none

/-- The way of one line, from the FIFO to the end of its job. -/
def exampleRun : List (ServiceEvent 1) :=
  .write (ascii "CACHE u\n") :: List.replicate 9 .main ++ [.initialise 0 true,
    .enter 0 (exampleResponses (ascii "ab") (ascii "c")) ⟨true, true⟩] ++
      List.replicate 6 (.operate 0) ++ [.finish 0]

theorem exists_exampleRun : ∃ s, exampleRun.foldlM (Service.next exampleSettings) exampleService =
      some s ∧
    (serviceSystem exampleSettings 1 (fun _ => List.replicate bufferSize 0) 1
      fun _ => none).Reachable s := by
  have hrange : ∀ event ∈ exampleRun, event.InRange := by
    intro event hevent
    cases event with
    | enter worker responses carried =>
      obtain ⟨-, rfl, -⟩ := by simpa [exampleRun] using hevent
      change ∀ chunk ∈ [ascii "ab", ascii "c"], Passable chunk
      unfold Passable bufferMemorySize
      decide
    | _ => trivial
  obtain ⟨s, hrun⟩ := Option.isSome_iff_exists.mp
    (show (exampleRun.foldlM (Service.next exampleSettings) exampleService).isSome by
      decide +kernel)
  exact ⟨s, hrun, .of_foldlM (fun _ _ _ hin htaken => And.intro hin htaken)
    (.start ⟨_, _, rfl⟩) exampleRun hrange hrun⟩

/-- In every reachable state in which no worker has a job, the jobs are those of the lines
handed out, and the cache is what the units, the jobs and the changes from outside, leave
one after another in some order. -/
theorem cache_serializable (settings : Settings) (workersCount : ℕ) (malloc : ℕ → Block)
    (hmalloc : ∀ i, (malloc i).length = bufferSize) (capacity : ℕ) (hcapacity : 1 ≤ capacity)
    (cache : Cache) (s : Service workersCount)
    (hreach : (serviceSystem settings workersCount malloc capacity cache).Reachable s)
    (hidle : ∀ worker, ¬ s.Busy worker) :
    s.units.filterMap CacheUnit.line? = s.daemon.pool.handed.map Prod.snd ∧
      ∃ order : List CacheUnit, order.Perm s.units ∧
        s.cache = order.foldl (fun cache unit => StoreOp.runOps cache (unit.ops settings))
          cache := by
  have h := Service.recorded_of_reachable hmalloc hcapacity hreach
  refine ⟨h.lines, ?_⟩
  obtain ⟨order, hperm, hcache⟩ := h.exists_order hidle
  refine ⟨order, hperm, ?_⟩
  rw [hcache, StoreOp.runOps, List.foldl_flatMap]
  rfl

/-- The line leaves its page. -/
theorem cache_serializable_one_line : ∃ s,
    exampleRun.foldlM (Service.next exampleSettings) exampleService = some s ∧
      s.units.length = 1 ∧ s.cache (ascii "__memc_u") = some (ascii "abc") ∧
      ∃ order : List CacheUnit, order.Perm s.units ∧ s.cache = order.foldl
        (fun cache unit => StoreOp.runOps cache (unit.ops exampleSettings)) fun _ => none := by
  obtain ⟨s, hrun, hreach⟩ := exists_exampleRun
  have hend : ∀ s ∈ exampleRun.foldlM (Service.next exampleSettings) exampleService,
      s.units.length = 1 ∧ s.cache (ascii "__memc_u") = some (ascii "abc") ∧
        ∀ worker, (s.daemon.pool.workers worker).status ≠ .busy := by
    decide +kernel
  obtain ⟨hunits, hpage, hidle⟩ := hend s hrun
  exact ⟨s, hrun, hunits, hpage, (cache_serializable exampleSettings 1 _
    (fun _ => List.length_replicate) 1 (Nat.le_refl 1) _ s hreach hidle).2⟩

/-- In every reachable state every record of the cache is a page that a transfer delivered
to a job for a line handed out, a CACHE of its key, up to the first NUL; or was put there
from outside; or was there from the start, and then only as long as nothing changed its
key. -/
theorem cache_holds_pages (settings : Settings) (workersCount : ℕ) (malloc : ℕ → Block)
    (hmalloc : ∀ i, (malloc i).length = bufferSize) (capacity : ℕ) (hcapacity : 1 ≤ capacity)
    (cache : Cache) (s : Service workersCount)
    (hreach : (serviceSystem settings workersCount malloc capacity cache).Reachable s)
    (key value : List UInt8) (hrecord : s.cache key = some value) :
    (∃ line responses carried, .job line responses carried ∈ s.units ∧
        line ∈ s.daemon.pool.handed.map Prod.snd ∧ Caches settings line ∧
        key = lineKey settings line ∧ responses.transfer.Delivers ∧
        value = cstr responses.transfer.body) ∨
      .other (.set key value) ∈ s.units ∨
      (cache key = some value ∧ ∀ entry ∈ s.history, entry.2.key ≠ key) := by
  have h := Service.recorded_of_reachable hmalloc hcapacity hreach
  rw [h.cache_eq, StoreOp.runOps_apply] at hrecord
  cases hlast : StoreOp.lastOn key (s.history.map Prod.snd) with
  | none =>
    rw [hlast] at hrecord
    refine Or.inr (Or.inr ⟨hrecord, fun entry hentry => ?_⟩)
    exact StoreOp.lastOn_eq_none_iff.mp hlast _ (List.mem_map_of_mem hentry)
  | some op =>
    rw [hlast] at hrecord
    obtain ⟨hop, hkey⟩ := StoreOp.mem_of_lastOn hlast
    -- only storing leaves a record
    cases op with
    | delete key' => cases hrecord
    | set key' value' =>
      obtain rfl : key' = key := hkey
      obtain rfl : value' = value := Option.some.inj hrecord
      obtain ⟨entry, hentry, heq⟩ := List.mem_map.mp hop
      obtain ⟨unit, hunit, hmem⟩ := h.exists_unit hentry
      rw [heq] at hmem
      cases unit with
      | job line responses carried =>
        obtain ⟨hcaches, hsame, hdelivers, hpage⟩ := set_mem_lineOps hmem
        have hhanded : line ∈ s.daemon.pool.handed.map Prod.snd := by
          rw [← h.lines]
          exact List.mem_filterMap.mpr ⟨_, hunit, rfl⟩
        exact Or.inl ⟨line, responses, carried, hunit, hhanded, hcaches, hsame, hdelivers, hpage⟩
      | other op =>
        rw [← List.mem_singleton.mp hmem] at hunit
        exact Or.inr (Or.inl hunit)

/-- The page is that of the line. -/
theorem cache_holds_pages_one_line : ∃ s,
    exampleRun.foldlM (Service.next exampleSettings) exampleService = some s ∧
      s.cache (ascii "__memc_u") = some (ascii "abc") ∧
      ∃ line responses carried, .job line responses carried ∈ s.units ∧
        line ∈ s.daemon.pool.handed.map Prod.snd ∧ Caches exampleSettings line ∧
        ascii "__memc_u" = lineKey exampleSettings line ∧ responses.transfer.Delivers ∧
        ascii "abc" = cstr responses.transfer.body := by
  obtain ⟨s, hrun, hreach⟩ := exists_exampleRun
  have hend : ∀ s ∈ exampleRun.foldlM (Service.next exampleSettings) exampleService,
      s.cache (ascii "__memc_u") = some (ascii "abc") ∧
        ∀ unit ∈ s.units, unit.line?.isSome = true := by
    decide +kernel
  obtain ⟨hpage, hjobs⟩ := hend s hrun
  refine ⟨s, hrun, hpage, ?_⟩
  rcases cache_holds_pages exampleSettings 1 _ (fun _ => List.length_replicate) 1
    (Nat.le_refl 1) _ s hreach _ _ hpage with hjob | hother | ⟨hbefore, -⟩
  · exact hjob
  · exact absurd (hjobs _ hother) (by decide)
  · cases hbefore

/-! ### When every URL has one answer -/

deriving instance DecidableEq for Transfer

/-- The cache after a line, for a web that answers every URL in one way. -/
def cacheLine (settings : Settings) (web : List UInt8 → Transfer) (cache : Cache)
    (line : List UInt8) : Cache :=
  if Caches settings line then
    Function.update cache (lineKey settings line)
      (if (web (lineArgument line)).Delivers then some (cstr (web (lineArgument line)).body)
      else none)
  else cache

/-- A job that met the web, with a memcached that did what it was asked to. -/
def CacheUnit.Answered (web : List UInt8 → Transfer) : CacheUnit → Prop
  | .job line responses carried =>
    responses.transfer = web (lineArgument line) ∧ carried = ⟨true, true⟩
  | .other _ => False

instance (web : List UInt8 → Transfer) : DecidablePred (CacheUnit.Answered web)
  | .job _ _ _ => inferInstanceAs (Decidable (_ ∧ _))
  | .other _ => inferInstanceAs (Decidable False)

/-- What a line does to the cache then. -/
def answerOps (settings : Settings) (web : List UInt8 → Transfer) (line : List UInt8) :
    List CacheOp :=
  if Caches settings line then
    .delete (lineKey settings line) ::
      if (web (lineArgument line)).Delivers then
        [.set (lineKey settings line) (cstr (web (lineArgument line)).body)] else []
  else []

section Answers

variable {settings : Settings} {web : List UInt8 → Transfer} {line line' : List UInt8}

theorem runOps_answerOps (cache : Cache) :
    StoreOp.runOps cache (answerOps settings web line) = cacheLine settings web cache line := by
  unfold answerOps cacheLine
  split_ifs
  · exact Function.update_idem _ _ _
  · rfl
  · rfl

theorem runOps_flatMap_answerOps (lines : List (List UInt8)) (cache : Cache) :
    StoreOp.runOps cache (lines.flatMap (answerOps settings web)) =
      lines.foldl (cacheLine settings web) cache := by
  induction lines generalizing cache with
  | nil => rfl
  | cons line lines ih =>
    rw [List.flatMap_cons, StoreOp.runOps_append, runOps_answerOps, ih, List.foldl_cons]

/-- A key has one URL, and so one answer. -/
theorem record_answerOps {key : List UInt8} {op op' : CacheOp}
    (hlast : StoreOp.lastOn key (answerOps settings web line) = some op)
    (hlast' : StoreOp.lastOn key (answerOps settings web line') = some op') :
    op.record = op'.record := by
  have hkey : ∀ {l : List UInt8} {o : CacheOp},
      StoreOp.lastOn key (answerOps settings web l) = some o →
        Caches settings l ∧ lineKey settings l = key := by
    intro l o ho
    obtain ⟨hmem, hk⟩ := StoreOp.mem_of_lastOn ho
    unfold answerOps at hmem
    split_ifs at hmem with hcaches hdelivers
    · simp only [List.mem_cons, List.not_mem_nil, or_false] at hmem
      refine ⟨hcaches, ?_⟩
      rcases hmem with rfl | rfl <;> exact hk
    · rw [List.mem_singleton.mp hmem] at hk
      exact ⟨hcaches, hk⟩
    · cases hmem
  obtain ⟨hcaches, hk⟩ := hkey hlast
  obtain ⟨hcaches', hk'⟩ := hkey hlast'
  have hargument : lineArgument line = lineArgument line' :=
    List.append_cancel_left (hk.trans hk'.symm)
  have hsame : answerOps settings web line = answerOps settings web line' := by
    rw [answerOps, answerOps, if_pos hcaches, if_pos hcaches', hk, hk', hargument]
  rw [hsame, hlast'] at hlast
  rw [Option.some.inj hlast]

/-- The jobs that met the web did what their lines do. -/
theorem flatMap_ops_of_answered {units : List CacheUnit}
    (hanswered : ∀ unit ∈ units, unit.Answered web) :
    units.flatMap (CacheUnit.ops settings) =
      (units.filterMap CacheUnit.line?).flatMap (answerOps settings web) := by
  induction units with
  | nil => rfl
  | cons unit units ih =>
    obtain ⟨hfirst, hrest⟩ := List.forall_mem_cons.mp hanswered
    cases unit with
    | other op => exact hfirst.elim
    | job line responses carried =>
      obtain ⟨htransfer, rfl⟩ := hfirst
      have hops : lineOps settings line responses ⟨true, true⟩ = answerOps settings web line := by
        simp [lineOps, answerOps, htransfer]
      rw [List.flatMap_cons, ih hrest]
      exact congrArg (· ++ _) hops

end Answers

namespace Service

/-- When every URL has one answer, the cache is what the lines handed out leave, in whatever
order they are taken. -/
theorem Recorded.cache_eq_of_answered {settings : Settings} {workersCount : ℕ} {cache : Cache}
    {s : Service workersCount} (h : s.Recorded settings cache) (hidle : ∀ worker, ¬ s.Busy worker)
    {web : List UInt8 → Transfer} (hanswered : ∀ unit ∈ s.units, unit.Answered web)
    {lines : List (List UInt8)} (hperm : lines.Perm (s.daemon.pool.handed.map Prod.snd)) :
    s.cache = lines.foldl (cacheLine settings web) cache := by
  obtain ⟨order, hunits, hcache⟩ := h.exists_order hidle
  have hline := hunits.filterMap CacheUnit.line?
  rw [h.lines] at hline
  calc s.cache
      = StoreOp.runOps cache
          ((order.filterMap CacheUnit.line?).flatMap (answerOps settings web)) := by
        rw [hcache, flatMap_ops_of_answered fun unit hunit =>
          hanswered unit (hunits.mem_iff.mp hunit)]
    _ = StoreOp.runOps cache (lines.flatMap (answerOps settings web)) :=
        StoreOp.runOps_perm (hline.trans hperm.symm)
          (fun _ _ _ _ _ _ _ hlast hlast' => record_answerOps hlast hlast') cache
    _ = lines.foldl (cacheLine settings web) cache := runOps_flatMap_answerOps lines cache

end Service

/-- When every URL has one answer, memcached does what it is asked to and nobody else
changes it, the cache is, whenever no worker has a job, what the lines handed out leave one
after another, in whatever order; so that at rest, with `should_run` set and one worker
whose initialisation did not fail, it is what the lines accepted leave. -/
theorem cache_determined_by_lines (settings : Settings) (workersCount : ℕ) (malloc : ℕ → Block)
    (hmalloc : ∀ i, (malloc i).length = bufferSize) (capacity : ℕ) (hcapacity : 1 ≤ capacity)
    (cache : Cache) (s : Service workersCount)
    (hreach : (serviceSystem settings workersCount malloc capacity cache).Reachable s)
    (web : List UInt8 → Transfer) (hanswered : ∀ unit ∈ s.units, unit.Answered web)
    (hidle : ∀ worker, ¬ s.Busy worker) :
    (∀ lines : List (List UInt8), lines.Perm (s.daemon.pool.handed.map Prod.snd) →
        s.cache = lines.foldl (cacheLine settings web) cache) ∧
      (s.daemon.pool.AtRest → s.daemon.pool.shared.shouldRun = true →
        (∃ worker, (s.daemon.pool.workers worker).status ≠ .failed) →
          s.cache = s.daemon.pool.accepted.foldl (cacheLine settings web) cache) := by
  have h := Service.recorded_of_reachable hmalloc hcapacity hreach
  have hlines : ∀ lines : List (List UInt8), lines.Perm (s.daemon.pool.handed.map Prod.snd) →
      s.cache = lines.foldl (cacheLine settings web) cache :=
    fun _ hperm => h.cache_eq_of_answered hidle hanswered hperm
  refine ⟨hlines, fun hrest hrun halive => hlines _ ?_⟩
  obtain ⟨worker, hworker⟩ := halive
  have hpool := Service.accounted_of_service hmalloc hcapacity hreach
  rw [hpool.handed_of_atRest hrest hrun hworker]

/-- The one line accepted decides what the cache holds. -/
theorem cache_determined_by_lines_one_line : ∃ s,
    exampleRun.foldlM (Service.next exampleSettings) exampleService = some s ∧
      s.cache = cacheLine exampleSettings
        (fun _ => (exampleResponses (ascii "ab") (ascii "c")).transfer) (fun _ => none)
        (ascii "CACHE u") := by
  obtain ⟨s, hrun, hreach⟩ := exists_exampleRun
  have hend : ∀ s ∈ exampleRun.foldlM (Service.next exampleSettings) exampleService,
      (∀ unit ∈ s.units, unit.Answered fun _ =>
        (exampleResponses (ascii "ab") (ascii "c")).transfer) ∧
        (∀ worker, (s.daemon.pool.workers worker).status ≠ .busy) ∧
        s.daemon.pool.handed.map Prod.snd = [ascii "CACHE u"] := by
    decide +kernel
  obtain ⟨hanswered, hidle, hlines⟩ := hend s hrun
  refine ⟨s, hrun, ?_⟩
  refine (cache_determined_by_lines exampleSettings 1 _ (fun _ => List.length_replicate) 1
    (Nat.le_refl 1) _ s hreach _ hanswered hidle).1 [ascii "CACHE u"] ?_
  rw [hlines]

end EasyForetell
