import EasyForetell.JobEffects
import EasyForetell.LogBounds

/-!
# What a job writes to the FIFO (queral.c, the UPDATE branch)

The job of an UPDATE feeds the daemon it runs in: its commands go to the FIFO that the main
thread reads. `lineCommands` says which they are as a function of the line alone. Each of
them is a CACHE, and a CACHE writes nothing, so what a line brings with it ends after one
round.

## Main results

* `writtenBytes_handleJob`: what a job writes
* `lineCommands_of_command`: a command brings no commands
* `length_operations_le`: how much a job does
-/

namespace EasyForetell

open Memory Theory

/-- A line as the daemon's clients and its workers write it: it is text, and fits in a
window of the FIFO with its newline. -/
structure WholeLine (line : List UInt8) : Prop where
  oneLine : newline ∉ line
  nulFree : (0 : UInt8) ∉ line
  fits : line.length + 1 ≤ bufferSize - 1

instance (line : List UInt8) : Decidable (WholeLine line) :=
  decidable_of_iff (newline ∉ line ∧ (0 : UInt8) ∉ line ∧ line.length + 1 ≤ bufferSize - 1)
    ⟨fun ⟨hline, hfree, hfits⟩ => ⟨hline, hfree, hfits⟩,
      fun ⟨hline, hfree, hfits⟩ => ⟨hline, hfree, hfits⟩⟩

/-- Every cache that is found can be walked, and a command can carry each of its pages. -/
def Settings.ServesPages (settings : Settings) : Prop :=
  ∀ name index action, findAction settings.actions name = .found index action →
    action.Walkable ∧ ∀ page ∈ action.pages, PageUrl (cstr page)

/-- The bytes that an operation puts into the FIFO. -/
def Operation.written? : Operation → Option (List UInt8)
  | .write bytes => some bytes
  | .fetch _ | .memcached _ | .log _ => none

/-- What operations put into the FIFO, write by write. -/
def writtenBytes (operations : List Operation) : List (List UInt8) :=
  operations.filterMap Operation.written?

/-- The lines that the job of a line brings with it. -/
def lineCommands (settings : Settings) (line : List UInt8) : List (List UInt8) :=
  if lineKind line = .update then
    match findAction settings.actions (lineArgument line ++ [0]) with
    | .found _ action => action.pages.map pageCommand
    | .null | .wild => []
  else []

/-- The FIFO takes the commands of a line whole. -/
def Responses.TakesCommands (responses : Responses) (settings : Settings) (line : List UInt8) :
    Prop :=
  ∀ i command, (lineCommands settings line)[i]? = some command →
    responses.access i = .wrote (command.length + 1)

/-! ### The commands of a line -/

section Commands

variable {settings : Settings} {line command : List UInt8} {page : Block}

/-- A command that can carry its page is a whole line. -/
theorem wholeLine_pageCommand (hpage : PageUrl (cstr page)) : WholeLine (pageCommand page) where
  oneLine := newline_notMem_pageCommand hpage
  nulFree := by
    have hcommand : (0 : UInt8) ∉ cacheCommand ++ [space] := by decide
    rw [pageCommand, List.mem_append]
    exact fun h => h.elim hcommand (nul_notMem_cstr page)
  fits := by
    have hfits := hpage.fits
    rwa [List.length_append, ← pageCommand] at hfits

/-- A command stands for a CACHE of its page. -/
theorem lineKind_pageCommand (hpage : PageUrl (cstr page)) :
    lineKind (pageCommand page) = .cache ∧ lineArgument (pageCommand page) = cstr page := by
  have htrim : trim (pageCommand page) = cacheCommand ++ space :: cstr page := by
    rw [trim_of_trimmed (trimmed_pageCommand hpage), pageCommand, List.append_assoc]
    rfl
  have hspace : space ∈ trim (pageCommand page) := by simp [htrim]
  have hall : ∀ c ∈ cacheCommand, (c != space) = true := List.all_eq_true.mp (by decide)
  have hword : lineWord (pageCommand page) = cacheCommand := by
    rw [lineWord, htrim, List.takeWhile_append_of_pos hall]
    simp
  have hbehind : (trim (pageCommand page)).dropWhile (· != space) = space :: cstr page := by
    rw [htrim, List.dropWhile_append_of_pos hall]
    simp
  constructor
  · rw [lineKind, if_pos hspace, hword]
    decide
  · rw [lineArgument, hbehind, trim_cons_of_space (by decide), trim_of_trimmed hpage.trimmed]

/-- A line brings commands for the pages of the cache it names. -/
theorem exists_page_of_mem_lineCommands (hcommand : command ∈ lineCommands settings line) :
    ∃ index action, lineKind line = .update ∧
      findAction settings.actions (lineArgument line ++ [0]) = .found index action ∧
      ∃ page ∈ action.pages, pageCommand page = command := by
  unfold lineCommands at hcommand
  split_ifs at hcommand with hkind
  · cases hfound : findAction settings.actions (lineArgument line ++ [0]) with
    | found index action =>
      rw [hfound] at hcommand
      exact ⟨index, action, hkind, rfl, List.mem_map.mp hcommand⟩
    | null | wild =>
      rw [hfound] at hcommand
      cases hcommand
  · cases hcommand

theorem wholeLine_of_mem_lineCommands (hserves : settings.ServesPages)
    (hcommand : command ∈ lineCommands settings line) : WholeLine command := by
  obtain ⟨index, action, -, hfound, page, hpage, rfl⟩ := exists_page_of_mem_lineCommands hcommand
  exact wholeLine_pageCommand ((hserves _ _ _ hfound).2 page hpage)

/-- What a line brings with it brings nothing more. -/
theorem lineCommands_of_command (hserves : settings.ServesPages)
    (hcommand : command ∈ lineCommands settings line) : lineCommands settings command = [] := by
  obtain ⟨index, action, -, hfound, page, hpage, rfl⟩ := exists_page_of_mem_lineCommands hcommand
  rw [lineCommands, (lineKind_pageCommand ((hserves _ _ _ hfound).2 page hpage)).1]
  rfl

end Commands

/-! ### What a job writes, and how much it does -/

section Writes

variable {settings : Settings} {responses : Responses} {slot page : Block}

theorem writtenBytes_append (first second : List Operation) :
    writtenBytes (first ++ second) = writtenBytes first ++ writtenBytes second :=
  List.filterMap_append

@[simp] theorem writtenBytes_logs (logs : List LogMessage) : writtenBytes (logs.map .log) = [] := by
  induction logs with
  | nil => rfl
  | cons log logs ih => exact ih

/-- A command that the FIFO takes whole is one write, and no message. -/
theorem pageOperations_of_whole (hpage : PageUrl (cstr page)) (fifoFilename : Block) :
    pageOperations fifoFilename (.wrote ((pageCommand page).length + 1)) page =
      [.write (pageCommand page ++ [newline])] := by
  have hwhole := wholeLine_pageCommand hpage
  have hfree : (0 : UInt8) ∉ pageCommand page ++ [newline] := by
    have hnewline : (0 : UInt8) ∉ [newline] := by decide
    rw [List.mem_append]
    exact fun h => h.elim hwhole.nulFree hnewline
  have hstring : cstr (pageCommand page ++ [newline] ++ [0]) = pageCommand page ++ [newline] :=
    cstr_append_nul hfree
  have hlength : (pageCommand page).length + 1 = strlen (pageCommand page ++ [newline] ++ [0]) := by
    rw [strlen, hstring, List.length_append, List.length_singleton]
  have hfits := hwhole.fits
  have hroom : (pageCommand page ++ [newline]).length + 1 ≤ bufferSize := by
    rw [List.length_append, List.length_singleton]
    omega
  rw [pageOperations, if_pos hroom, hlength, writeFifo_of_whole, hstring]
  rfl

/-- The job looks up the action that its line names. -/
theorem findAction_parse (hnul : (0 : UInt8) ∈ slot) (w : Worker)
    (hkind : lineKind (cstr slot) = .update) :
    findAction settings.actions (w.parse slot).job =
      findAction settings.actions (lineArgument (cstr slot) ++ [0]) := by
  obtain ⟨-, -, hargument⟩ := parse_spec w hnul
  rw [hkind] at hargument
  have hjob : cstr (Worker.job { w with job := (w.parse slot).job }) = lineArgument (cstr slot) :=
    hargument (by decide)
  exact (findAction_job hjob).symm

/-- An UPDATE whose commands the FIFO takes does nothing but write them. -/
theorem operations_handleJob_of_update (hserves : settings.ServesPages)
    (htakes : responses.TakesCommands settings (cstr slot)) (hnul : (0 : UInt8) ∈ slot)
    (w : Worker) (hkind : lineKind (cstr slot) = .update) {index : ℕ} {action : Action}
    (hfound : findAction settings.actions (lineArgument (cstr slot) ++ [0]) =
      .found index action) :
    (handleJob settings responses w slot).operations =
      (lineCommands settings (cstr slot)).map fun command => .write (command ++ [newline]) := by
  obtain ⟨hres, -, -⟩ := parse_spec w hnul
  rw [hkind] at hres
  have hjob := (findAction_parse hnul w hkind).trans hfound
  have hpages := (hserves _ _ _ hfound).2
  have hcommands : lineCommands settings (cstr slot) = action.pages.map pageCommand := by
    rw [lineCommands, if_pos hkind, hfound]
  obtain ⟨-, hoperations⟩ := updateLoop_spec settings responses.access
    (UpdateLoop.ready_start w.newCommand) (Nat.zero_le _)
    (show action.pages.length ≤ 0 + action.count by
      rw [Nat.zero_add]
      exact length_pagesOf_le _ _)
  -- no page takes exactly one byte too many: there is room for the NUL of a window
  have hexact : ∀ page ∈ action.pages.drop 0, strlen page + 7 ≠ bufferSize := by
    intro page hpage
    have hfits := (wholeLine_pageCommand (hpages page (List.mem_of_mem_drop hpage))).fits
    rw [length_pageCommand] at hfits
    omega
  have hpage : ∀ entry ∈ action.pages.zipIdx,
      pageOperations settings.fifoFilename (responses.access entry.2) entry.1 =
        [.write (pageCommand entry.1 ++ [newline])] := by
    rintro ⟨page, i⟩ hentry
    have hplace : action.pages[i]? = some page := List.mem_zipIdx_iff_getElem?.mp hentry
    have hwrote := htakes i (pageCommand page) (by rw [hcommands, List.getElem?_map, hplace]; rfl)
    dsimp only
    rw [hwrote]
    exact pageOperations_of_whole (hpages page (List.mem_of_getElem? hplace)) _
  have hbranch : (handleJob settings responses w slot).operations =
      (updateLoop settings responses.access action action.count
        (.start w.newCommand)).2 := by
    simp only [handleJob, hres]
    rw [handleUpdate_of_found hjob]
  rw [hbranch, hoperations hexact, hcommands, List.map_map]
  change (action.pages.zipIdx 0).flatMap _ = _
  rw [List.flatMap_congr hpage, ← List.map_eq_flatMap]
  conv_rhs => rw [← List.zipIdx_map_fst 0 action.pages, List.map_map]
  rfl

/-- The CACHE branch writes nothing to the FIFO. -/
theorem writtenBytes_handleCache (settings : Settings) (responses : Responses) (w : Worker) :
    writtenBytes (handleCache settings responses w).operations = [] := by
  simp only [handleCache]
  split_ifs
  · exact writtenBytes_logs _
  · rw [writtenBytes_append]
    exact congrArg (· ++ _) (writtenBytes_logs _)
  · exact writtenBytes_logs _

/-- A job writes the commands of its line, one by one. -/
theorem writtenBytes_handleJob (hserves : settings.ServesPages)
    (htakes : responses.TakesCommands settings (cstr slot)) (hnul : (0 : UInt8) ∈ slot)
    (w : Worker) :
    writtenBytes (handleJob settings responses w slot).operations =
      (lineCommands settings (cstr slot)).map fun command => command ++ [newline] := by
  obtain ⟨hres, -, -⟩ := parse_spec w hnul
  have hnone : lineKind (cstr slot) ≠ .update → lineCommands settings (cstr slot) = [] :=
    fun hkind => if_neg hkind
  cases hkind : lineKind (cstr slot) with
  | fetch =>
    rw [hnone (by simp [hkind])]
    rw [hkind] at hres
    simp only [handleJob, hres, handleFetch]
    exact writtenBytes_logs _
  | cache =>
    rw [hnone (by simp [hkind]), handleJob_of_cache (hres.trans hkind)]
    exact writtenBytes_handleCache _ _ _
  | update =>
    rw [hkind] at hres
    cases hfound : findAction settings.actions (lineArgument (cstr slot) ++ [0]) with
    | found index action =>
      rw [operations_handleJob_of_update hserves htakes hnul w hkind hfound, writtenBytes,
        List.filterMap_map]
      exact congrFun List.filterMap_eq_map' _
    | null =>
      rw [lineCommands, if_pos hkind, hfound]
      simp only [handleJob, hres, handleUpdate, (findAction_parse hnul w hkind).trans hfound]
      rfl
    | wild => exact absurd hfound (settings.tame _)
  | undefined =>
    rw [hnone (by simp [hkind])]
    rw [hkind] at hres
    simp only [handleJob, hres]
    rfl

/-- libcurl logs at most that a response is too large. -/
theorem length_logs_curlEasyPerform_le (mem : MemoryStruct) (code : CurlCode)
    {chunks : List (List UInt8)} (hrange : ∀ chunk ∈ chunks, Passable chunk) :
    (curlEasyPerform mem code chunks).logs.length ≤ 1 := by
  induction chunks generalizing mem with
  | nil => exact Nat.zero_le 1
  | cons chunk chunks ih =>
    obtain ⟨hchunk, hchunks⟩ := List.forall_mem_cons.mp hrange
    have htaken : (writeCallback mem chunk).logs.length ≤ 1 ∧
        ((writeCallback mem chunk).returned = chunk.length →
          (writeCallback mem chunk).logs = []) := by
      rw [Passable] at hchunk
      unfold writeCallback
      dsimp only
      split_ifs
      · exact ⟨Nat.zero_le 1, fun _ => rfl⟩
      · -- the callback returns no size that a chunk has
        exact ⟨le_rfl, fun hreturned => absurd hreturned (by dsimp only; omega)⟩
      · exact ⟨Nat.zero_le 1, fun _ => rfl⟩
    unfold curlEasyPerform
    dsimp only
    split_ifs with hreturned
    · dsimp only
      rw [htaken.2 hreturned]
      exact ih _ hchunks
    · exact htaken.1

theorem length_logs_curlFetchUrl_le (strerror : CurlCode → List UInt8) {transfer : Transfer}
    (hrange : transfer.InRange) (buffer : MemoryStruct) (url : Block) :
    (curlFetchUrl strerror transfer buffer url).logs.length ≤ 2 := by
  have hperformed := length_logs_curlEasyPerform_le
    { buffer with memory := memset buffer.memory 0 bufferMemorySize, size := 0 } transfer.code
    hrange
  unfold curlFetchUrl
  dsimp only
  split_ifs
  all_goals
    simp only [List.length_append, List.length_singleton]
    omega

/-- Besides writing the commands of its line a job does at most seven things. -/
theorem length_operations_le (hserves : settings.ServesPages)
    (htakes : responses.TakesCommands settings (cstr slot)) (hrange : responses.transfer.InRange)
    (hnul : (0 : UInt8) ∈ slot) (w : Worker) :
    (handleJob settings responses w slot).operations.length ≤
      7 + (lineCommands settings (cstr slot)).length := by
  obtain ⟨hres, -, -⟩ := parse_spec w hnul
  have hfetched := fun buffer url =>
    length_logs_curlFetchUrl_le responses.strerror hrange buffer url
  cases hkind : lineKind (cstr slot) with
  | fetch =>
    rw [hkind] at hres
    have hlogs := hfetched ⟨w.buffer.memory, w.buffer.size, false⟩ (w.parse slot).job
    simp only [handleJob, hres, handleFetch, List.length_cons, List.length_map]
    omega
  | cache =>
    have hlogs := hfetched ⟨w.buffer.memory, w.buffer.size, true⟩ (w.parse slot).job
    rw [handleJob_of_cache (hres.trans hkind)]
    simp only [handleCache, createKey]
    split_ifs
    all_goals simp only [List.length_append, List.length_cons, List.length_map, List.length_nil]
    all_goals omega
  | update =>
    rw [hkind] at hres
    cases hfound : findAction settings.actions (lineArgument (cstr slot) ++ [0]) with
    | found index action =>
      rw [operations_handleJob_of_update hserves htakes hnul w hkind hfound, List.length_map]
      exact Nat.le_add_left _ _
    | null =>
      simp only [handleJob, hres, handleUpdate, (findAction_parse hnul w hkind).trans hfound,
        List.length_singleton]
      omega
    | wild => exact absurd hfound (settings.tame _)
  | undefined =>
    rw [hkind] at hres
    simp only [handleJob, hres, List.length_singleton]
    omega

end Writes

end EasyForetell
