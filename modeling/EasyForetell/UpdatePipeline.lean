import EasyForetell.Command
import EasyForetell.Framing
import EasyForetell.Theory.Transition

/-!
# From UPDATE to the pages (queral.c)

An UPDATE writes its commands to the FIFO while others write lines of their own. The
callback reads the FIFO in windows that end anywhere, and the workers decode what it
queues. Nothing is lost on the way: a line that a window cuts fits in the next one.

## Main results

* `PipelineStep.intact`: no step damages a line between writer and queue
* `decodes_of_pageUrl`: `get_command` gets the page back from its command
* `update_commands_decoded`: the queue receives the lines written, in order, and the
  commands of the UPDATE decode to its pages
-/

namespace EasyForetell

open Memory Theory

/-! ### The pipeline -/

/-- The pages an array of URLs stands for: those before the first NULL. -/
def pagesOf : ℕ → List (Option Block) → List Block
  | count + 1, some page :: slots => page :: pagesOf count slots
  | _, _ => []

/-- The pages an action stands for. One that is not `Walkable` stands for none here, though
`worker_thread` follows its NULL list. -/
def Action.pages (action : Action) : List Block :=
  pagesOf action.count (action.refreshList.getD [])

/-- Who wrote a line to the FIFO. -/
inductive Writer
  | update
  | other
  deriving DecidableEq

/-- The FIFO between its writers and the queue, with the lines written and the lines
queued so far. -/
structure Pipeline where
  fifo : List UInt8
  worker : SocketWorker
  shared : Shared
  loop : UpdateLoop
  written : List (Writer × List UInt8)
  accepted : List (List UInt8)

namespace Pipeline

/-- The lines written, whoever wrote them. -/
def writtenLines (p : Pipeline) : List (List UInt8) := p.written.map Prod.snd

/-- The lines the UPDATE wrote. -/
def commands (p : Pipeline) : List (List UInt8) :=
  (p.written.filter fun entry => entry.1 = .update).map Prod.snd

/-- A writer appends a line. -/
def append (p : Pipeline) (writer : Writer) (line : List UInt8) : Pipeline :=
  { p with fifo := p.fifo ++ line ++ [newline], written := p.written ++ [(writer, line)] }

/-- An iteration of the UPDATE leaves its variables, and its command in the FIFO. -/
def refresh (p : Pipeline) (fifoFilename : Block) (loop : UpdateLoop) :
    UpdateOutput → Pipeline
  | .command str => { p with
      loop
      fifo := (writeFifo fifoFilename (.wrote (strlen str)) p.fifo str).1
      written := p.written ++ (lines newline (cstr str)).map fun line => (.update, line) }
  | .message _ => { p with loop }

/-- What `read` returns: as much as is available, up to the size of `read_buffer`. -/
def window (p : Pipeline) : List UInt8 := p.fifo.take (bufferSize - 1)

/-- The callback reads the window. -/
def read (p : Pipeline) (workersCount : ℕ) (dequeues : List ℕ) : Pipeline :=
  let result := socketCb workersCount p.worker p.shared (.data p.window) dequeues
  { p with
    fifo := p.fifo.drop (bufferSize - 1)
    worker := result.worker
    shared := result.shared
    accepted := p.accepted ++ result.accepted }

end Pipeline

/-- What can happen to the pipeline. -/
inductive PipelineEvent
  | append (line : List UInt8)
  | refresh
  | read (dequeues : List ℕ)
  | take

/-- The other writers append whole lines that fit in a window, the UPDATE makes its
next iteration, the callback reads while the queue has room for what it completes,
and the workers take jobs. -/
inductive PipelineStep (workersCount : ℕ) (fifoFilename : Block) (action : Action) (p : Pipeline) :
    PipelineEvent → Pipeline → Prop
  | append (line : List UInt8) (hline : newline ∉ line) (hfits : line.length + 1 ≤ bufferSize - 1) :
      PipelineStep workersCount fifoFilename action p (.append line) (p.append .other line)
  | refresh (loop : UpdateLoop) (output : UpdateOutput)
      (hnext : p.loop.next action = some (loop, output)) :
      PipelineStep workersCount fifoFilename action p .refresh (p.refresh fifoFilename loop output)
  | read (dequeues : List ℕ)
      (hroom : RoomFor p.shared.queue.capacity p.shared.queue.occupied dequeues
        (frame newline (cstr p.worker.cacheBuffer) p.window).1.length) :
      PipelineStep workersCount fifoFilename action p (.read dequeues) (p.read workersCount dequeues)
  | take :
      PipelineStep workersCount fifoFilename action p .take { p with shared := takeJob p.shared }

/-- An UPDATE starts with an empty FIFO and an empty `cache_buffer`. -/
structure Pipeline.Start (items : List (List UInt8)) (p : Pipeline) : Prop where
  fifo : p.fifo = []
  cache : cstr p.worker.cacheBuffer = []
  running : p.shared.shouldRun = true
  queue : p.shared.queue.Holds items
  loop : ∃ newCommand, p.loop = .start newCommand
  written : p.written = []
  accepted : p.accepted = []

/-- The runs of the pipeline, with the jobs queued before it starts. -/
def pipeline (workersCount : ℕ) (fifoFilename : Block) (action : Action)
    (items : List (List UInt8)) : TransitionSystem Pipeline PipelineEvent where
  init := Pipeline.Start items
  step := PipelineStep workersCount fifoFilename action

/-- Another writer appends no NUL. -/
def PipelineEvent.NulFree : PipelineEvent → Prop
  | .append line => (0 : UInt8) ∉ line
  | _ => True

/-! ### Pages and their commands -/

/-- A URL that a command can carry. -/
structure PageUrl (url : List UInt8) : Prop where
  nonempty : url ≠ []
  oneLine : newline ∉ url
  trimmed : Trimmed url
  fits : (cacheCommand ++ [space] ++ url ++ [newline]).length ≤ bufferSize - 1

/-- The command for a page, without its newline. -/
def pageCommand (page : Block) : List UInt8 := cacheCommand ++ [space] ++ cstr page

section Pages

variable {action : Action} {page : Block}

theorem getElem?_pagesOf (count : ℕ) (slots : List (Option Block)) (i : ℕ)
    (hi : i ≤ (pagesOf count slots).length) :
    (pagesOf count slots)[i]? = if i < count then slots[i]?.join else none := by
  induction slots generalizing count i with
  | nil => simp [pagesOf]
  | cons slot slots ih =>
    cases count with
    | zero => simp [pagesOf]
    | succ count =>
      cases slot with
      | none =>
        -- a NULL ends the pages
        obtain rfl : i = 0 := by simpa [pagesOf] using hi
        simp [pagesOf]
      | some page =>
        cases i with
        | zero => simp [pagesOf]
        | succ i =>
          have hlater := ih count i (by simpa [pagesOf] using hi)
          simpa [pagesOf] using hlater

/-- The loop of the UPDATE meets the pages one after another, and then its end. -/
theorem Action.refresh_eq_getElem? {i : ℕ} (hi : i ≤ action.pages.length) :
    action.refresh i = action.pages[i]? :=
  (getElem?_pagesOf _ _ i hi).symm

theorem newline_notMem_pageCommand (hpage : PageUrl (cstr page)) :
    newline ∉ pageCommand page := by
  have hcommand : newline ∉ cacheCommand ++ [space] := by decide
  rw [pageCommand, List.mem_append]
  exact fun h => h.elim hcommand hpage.oneLine

theorem trimmed_pageCommand (hpage : PageUrl (cstr page)) : Trimmed (pageCommand page) := by
  refine ⟨by simp [pageCommand, cacheCommand, ascii]; decide, ?_⟩
  rw [pageCommand, List.getLast?_append_of_ne_nil _ hpage.nonempty]
  exact hpage.trimmed.2

/-- A line that `get_command` takes for a CACHE of the page, whatever buffers it is
in. -/
def Decodes (line : List UInt8) (page : Block) : Prop :=
  ∀ command job : Block, (0 : UInt8) ∈ job → cstr job = line →
    (getCommand command job).res = .cache ∧ cstr (getCommand command job).job = cstr page

/-- The command for a page decodes to the page. -/
theorem decodes_of_pageUrl (hpage : PageUrl (cstr page)) : Decodes (pageCommand page) page := by
  intro command job hnul hjob
  -- nothing to trim: the command starts the line and the page ends it
  have htrim : trim (cstr job) = cacheCommand ++ space :: cstr page := by
    rw [hjob, trim_of_trimmed (trimmed_pageCommand hpage), pageCommand, List.append_assoc]
    rfl
  have hkind : Command.ofKeyword cacheCommand = .cache := by decide
  obtain ⟨hres, -, hargument, -⟩ := getCommand_of_space command hnul htrim (by decide)
  rw [hkind] at hres
  have hpageUrl := hargument (by rw [hkind]; decide)
  exact ⟨hres, hpageUrl.trans (trim_of_trimmed hpage.trimmed)⟩

end Pages

/-! ### What every step keeps -/

/-- Nothing is lost between the writers and the queue. -/
structure Pipeline.Intact (items : List (List UInt8)) (p : Pipeline) : Prop where
  running : p.shared.shouldRun = true
  nulFree : (0 : UInt8) ∉ p.fifo
  framed : p.writtenLines = p.accepted ++ (frame newline (cstr p.worker.cacheBuffer) p.fifo).1
  whole : (frame newline (cstr p.worker.cacheBuffer) p.fifo).2 = []
  short : ∀ line ∈ (frame newline (cstr p.worker.cacheBuffer) p.fifo).1,
    line.length + 1 ≤ bufferSize - 1
  queued : ∃ taken queued, items ++ p.accepted = taken ++ queued ∧ p.shared.queue.Holds queued

/-- The UPDATE has written the commands of the pages its loop has passed. -/
structure Pipeline.UpToDate (action : Action) (p : Pipeline) : Prop where
  ready : p.loop.Ready
  index_le : p.loop.index ≤ action.pages.length
  commands : p.commands = (action.pages.take p.loop.index).map pageCommand

section Steps

variable {workersCount : ℕ} {fifoFilename : Block} {action : Action} {items : List (List UInt8)}
  {p q : Pipeline}

theorem Pipeline.Start.intact (hstart : p.Start items) : p.Intact items where
  running := hstart.running
  nulFree := by simp [hstart.fifo]
  framed := by simp [writtenLines, hstart.written, hstart.accepted, hstart.fifo, frame]
  whole := by
    rw [hstart.fifo, hstart.cache]
    rfl
  short := by simp [hstart.fifo, frame]
  queued := ⟨[], items, by simp [hstart.accepted], hstart.queue⟩

theorem Pipeline.Start.upToDate (hstart : p.Start items) : p.UpToDate action := by
  obtain ⟨newCommand, hloop⟩ := hstart.loop
  have hindex : p.loop.index = 0 := by rw [hloop]; rfl
  refine ⟨hloop ▸ UpdateLoop.ready_start newCommand, ?_, ?_⟩
  · rw [hindex]
    exact Nat.zero_le _
  · simp [commands, hstart.written, hindex]

/-- A line that is appended whole does no damage. -/
theorem Pipeline.Intact.append (hintact : p.Intact items) (writer : Writer) {line : List UInt8}
    (hline : newline ∉ line) (hfits : line.length + 1 ≤ bufferSize - 1)
    (hfree : (0 : UInt8) ∉ line) : (p.append writer line).Intact items := by
  have hframe : frame newline (cstr p.worker.cacheBuffer) (p.fifo ++ line ++ [newline]) =
      ((frame newline (cstr p.worker.cacheBuffer) p.fifo).1 ++ [line], []) := by
    rw [List.append_assoc, frame_append, hintact.whole, frame_line hline]
  constructor
  case running => exact hintact.running
  case nulFree =>
    have hnewline : (0 : UInt8) ∉ [newline] := by decide
    simp only [Pipeline.append, List.mem_append, not_or]
    exact ⟨⟨hintact.nulFree, hfree⟩, hnewline⟩
  case framed =>
    simp only [Pipeline.append, writtenLines, List.map_append, List.map_cons, List.map_nil, hframe]
    rw [← List.append_assoc, ← hintact.framed]
    rfl
  case whole => simp only [Pipeline.append, hframe]
  case short =>
    simp only [Pipeline.append, hframe, List.mem_append, List.mem_singleton]
    rintro l (hl | rfl)
    · exact hintact.short l hl
    · exact hfits
  case queued => exact hintact.queued

/-- Lines of others are no commands of the UPDATE. -/
theorem Pipeline.UpToDate.append_other (hdate : p.UpToDate action) (line : List UInt8) :
    (p.append .other line).UpToDate action := by
  refine ⟨hdate.ready, hdate.index_le, ?_⟩
  have hcommands : (p.append .other line).commands = p.commands := by
    simp [Pipeline.append, Pipeline.commands]
  exact hcommands.trans hdate.commands

/-- An iteration of the UPDATE appends the command of the next page. -/
theorem Pipeline.UpToDate.refresh_eq (hdate : p.UpToDate action)
    (hpages : ∀ page ∈ action.pages, PageUrl (cstr page)) {loop : UpdateLoop}
    {output : UpdateOutput} (hnext : p.loop.next action = some (loop, output)) :
    ∃ page, action.pages[p.loop.index]? = some page ∧ PageUrl (cstr page) ∧
      loop.index = p.loop.index + 1 ∧ loop.Ready ∧
      p.refresh fifoFilename loop output =
        { p.append .update (pageCommand page) with loop } := by
  -- there is an iteration only while there is a page
  cases hpage : action.pages[p.loop.index]? with
  | none =>
    rw [← Action.refresh_eq_getElem? hdate.index_le] at hpage
    rw [UpdateLoop.next, hpage] at hnext
    cases hnext
  | some page =>
    have hurl := hpages page (List.mem_of_getElem? hpage)
    rw [← Action.refresh_eq_getElem? hdate.index_le] at hpage
    have hfits : p.loop.length1 + strlen page + 1 ≤ bufferSize := by
      have := hurl.fits
      rw [List.length_append, List.length_append, List.length_singleton] at this
      rw [hdate.ready.length1_eq, strlen]
      omega
    have hcommand := UpdateLoop.next_of_fits hpage hfits
    obtain ⟨hstring, hready⟩ := hdate.ready.cstr_built page
    obtain ⟨rfl, rfl⟩ := Prod.mk.inj (Option.some.inj (hcommand.symm.trans hnext))
    refine ⟨page, rfl, hurl, rfl, hready, ?_⟩
    have hline : lines newline (cstr (p.loop.built page)) = [pageCommand page] := by
      rw [hstring, ← pageCommand, lines_append_sep (newline_notMem_pageCommand hurl), lines_nil]
    rw [refresh, writeFifo_of_whole, hline, hstring, ← pageCommand, Pipeline.append,
      ← List.append_assoc]
    rfl

/-- The UPDATE moves on to the next page. -/
theorem Pipeline.UpToDate.refresh (hdate : p.UpToDate action)
    (hpages : ∀ page ∈ action.pages, PageUrl (cstr page)) {loop : UpdateLoop}
    {output : UpdateOutput} (hnext : p.loop.next action = some (loop, output)) :
    (p.refresh fifoFilename loop output).UpToDate action := by
  obtain ⟨page, hpage, -, hindex, hready, hrefresh⟩ := hdate.refresh_eq hpages hnext
  have htake : action.pages.take loop.index = action.pages.take p.loop.index ++ [page] := by
    rw [hindex, List.take_add_one, hpage]
    rfl
  have hinside := (List.getElem?_eq_some_iff.mp hpage).1
  rw [hrefresh]
  refine ⟨hready, ?_, ?_⟩
  · change loop.index ≤ _
    omega
  · change Pipeline.commands _ = (action.pages.take loop.index).map pageCommand
    rw [htake, List.map_append, ← hdate.commands]
    simp [Pipeline.append, Pipeline.commands]

/-- A command of the UPDATE does no damage either. -/
theorem Pipeline.Intact.refresh (hintact : p.Intact items) (hdate : p.UpToDate action)
    (hpages : ∀ page ∈ action.pages, PageUrl (cstr page)) {loop : UpdateLoop}
    {output : UpdateOutput} (hnext : p.loop.next action = some (loop, output)) :
    (p.refresh fifoFilename loop output).Intact items := by
  obtain ⟨page, -, hurl, -, -, hrefresh⟩ := hdate.refresh_eq hpages hnext
  have hfits : (pageCommand page).length + 1 ≤ bufferSize - 1 := by
    have := hurl.fits
    rwa [List.length_append, ← pageCommand] at this
  have hfree : (0 : UInt8) ∉ pageCommand page := by
    have hcommand : (0 : UInt8) ∉ cacheCommand ++ [space] := by decide
    rw [pageCommand, List.mem_append]
    exact fun h => h.elim hcommand (nul_notMem_cstr page)
  obtain ⟨hrunning, hnul, hframed, hwhole, hshort, hqueued⟩ := hintact.append .update
    (newline_notMem_pageCommand hurl) hfits hfree
  rw [hrefresh]
  exact ⟨hrunning, hnul, hframed, hwhole, hshort, hqueued⟩

/-- A read of an empty FIFO changes nothing. -/
theorem Pipeline.read_of_empty (hrunning : p.shared.shouldRun = true) (hempty : p.fifo = [])
    (dequeues : List ℕ) : p.read workersCount dequeues = p := by
  have hwindow : p.window = [] := by rw [window, hempty, List.take_nil]
  have hrest : p.fifo.drop (bufferSize - 1) = p.fifo := by rw [hempty, List.drop_nil]
  simp [Pipeline.read, hwindow, hrest, socketCb, shouldSocketWorkerRun_of_run hrunning]

/-- The FIFO is framed window first, and the rest from the line the window leaves open. -/
theorem Pipeline.frame_fifo (p : Pipeline) :
    frame newline (cstr p.worker.cacheBuffer) p.fifo =
      ((frame newline (cstr p.worker.cacheBuffer) p.window).1 ++
          (frame newline (frame newline (cstr p.worker.cacheBuffer) p.window).2
            (p.fifo.drop (bufferSize - 1))).1,
        (frame newline (frame newline (cstr p.worker.cacheBuffer) p.window).2
          (p.fifo.drop (bufferSize - 1))).2) := by
  rw [← frame_append, window, List.take_append_drop]

/-- What a read of a FIFO that is not empty does: it queues the lines of its window and
keeps the line that the window leaves open. -/
structure Pipeline.ReadsWindow (p q : Pipeline) : Prop where
  fifo : q.fifo = p.fifo.drop (bufferSize - 1)
  written : q.written = p.written
  running : q.shared.shouldRun = true
  accepted : q.accepted = p.accepted ++ (frame newline (cstr p.worker.cacheBuffer) p.window).1
  cache : cstr q.worker.cacheBuffer = (frame newline (cstr p.worker.cacheBuffer) p.window).2
  queued (queued : List (List UInt8)) : p.shared.queue.Holds queued →
    ∃ taken later, queued ++ (frame newline (cstr p.worker.cacheBuffer) p.window).1 =
      taken ++ later ∧ q.shared.queue.Holds later

theorem Pipeline.Intact.readsWindow (hintact : p.Intact items) (hne : p.fifo ≠ [])
    {dequeues : List ℕ}
    (hroom : RoomFor p.shared.queue.capacity p.shared.queue.occupied dequeues
      (frame newline (cstr p.worker.cacheBuffer) p.window).1.length) :
    p.ReadsWindow (p.read workersCount dequeues) := by
  have hwindow : p.window ≠ [] := by simp [window, hne, bufferSize]
  have hfree : (0 : UInt8) ∉ p.window := fun h => hintact.nulFree (List.mem_of_mem_take h)
  have hchunk : ValidChunk p.window := ⟨hwindow, List.length_take_le _ _, hfree⟩
  have hfit : ∀ line ∈ (frame newline (cstr p.worker.cacheBuffer) p.window).1,
      line.length < bufferSize := by
    intro line hline
    have := hintact.short line (by rw [p.frame_fifo]; exact List.mem_append_left _ hline)
    omega
  -- a line that was open before is completed, so the window overwrites nothing
  have hkeeps : cstr p.worker.cacheBuffer = [] ∨ newline ∈ p.window := by
    by_cases hopen : cstr p.worker.cacheBuffer = []
    · exact Or.inl hopen
    · exact Or.inr (sep_mem_take hopen hintact.whole fun line hline =>
        (Nat.le_succ _).trans (hintact.short line hline))
  have hmatches := socketCb_matches workersCount p.worker hintact.running dequeues hchunk
  have hall := processLines_of_room p.shared dequeues hfit hroom
  constructor
  case fifo => rfl
  case written => rfl
  case running =>
    exact (congrArg Shared.shouldRun hmatches.shared).trans (hall.shouldRun.trans hintact.running)
  case accepted => exact congrArg (p.accepted ++ ·) (hmatches.accepted.trans hall.accepted)
  case cache =>
    rw [← keptLine_eq_frame_snd hwindow hkeeps]
    exact hmatches.cache.trans (by rw [hall.not_stopped]; rfl)
  case queued =>
    intro queued hholds
    have hlines : ∀ line ∈ (frame newline (cstr p.worker.cacheBuffer) p.window).1,
        (0 : UInt8) ∉ line := by
      intro line hline hmem
      exact (mem_of_mem_frame hline hmem).elim (nul_notMem_cstr _) hfree
    have hlater := processLines_holds hholds dequeues hlines
    rw [hall.accepted, ← hmatches.shared] at hlater
    exact hlater

/-- A read that queues its window loses nothing. -/
theorem Pipeline.Intact.of_readsWindow (hintact : p.Intact items) (hread : p.ReadsWindow q) :
    q.Intact items := by
  have hframe := p.frame_fifo
  rw [← hread.cache, ← hread.fifo] at hframe
  constructor
  case running => exact hread.running
  case nulFree =>
    rw [hread.fifo]
    exact fun h => hintact.nulFree (List.mem_of_mem_drop h)
  case framed =>
    have hframed := hintact.framed
    rw [hframe] at hframed
    rw [hread.accepted, List.append_assoc, writtenLines, hread.written]
    exact hframed
  case whole =>
    have hwhole := hintact.whole
    rw [hframe] at hwhole
    exact hwhole
  case short =>
    intro line hline
    refine hintact.short line ?_
    rw [hframe]
    exact List.mem_append_right _ hline
  case queued =>
    obtain ⟨taken, queued, htaken, hholds⟩ := hintact.queued
    obtain ⟨more, later, hmore, hlater⟩ := hread.queued queued hholds
    refine ⟨taken ++ more, later, ?_, hlater⟩
    rw [hread.accepted, ← List.append_assoc, htaken, List.append_assoc, hmore, List.append_assoc]

/-- A read completes the line that is open and loses nothing. -/
theorem Pipeline.Intact.read (hintact : p.Intact items) {dequeues : List ℕ}
    (hroom : RoomFor p.shared.queue.capacity p.shared.queue.occupied dequeues
      (frame newline (cstr p.worker.cacheBuffer) p.window).1.length) :
    (p.read workersCount dequeues).Intact items := by
  by_cases hempty : p.fifo = []
  · rwa [Pipeline.read_of_empty hintact.running hempty]
  · exact hintact.of_readsWindow (hintact.readsWindow hempty hroom)

/-- Taking a job takes it from the queue only. -/
theorem Pipeline.Intact.take (hintact : p.Intact items) :
    Pipeline.Intact items { p with shared := takeJob p.shared } := by
  obtain ⟨hrunning, hnul, hframed, hwhole, hshort, taken, queued, htaken, hholds⟩ := hintact
  refine ⟨?_, hnul, hframed, hwhole, hshort, taken ++ queued.take 1, queued.tail, ?_,
    holds_takeJob hholds⟩
  · exact (shouldRun_takeJobs 1 p.shared).trans hrunning
  · rw [List.append_assoc, ← List.drop_one, List.take_append_drop]
    exact htaken

/-- Every step keeps the UPDATE up to date. -/
theorem PipelineStep.upToDate (hpages : ∀ page ∈ action.pages, PageUrl (cstr page))
    {event : PipelineEvent} (hstep : PipelineStep workersCount fifoFilename action p event q)
    (hdate : p.UpToDate action) : q.UpToDate action := by
  cases hstep with
  | append line hline hfits => exact hdate.append_other line
  | refresh loop output hnext => exact hdate.refresh hpages hnext
  | read dequeues hroom => exact ⟨hdate.ready, hdate.index_le, hdate.commands⟩
  | take => exact ⟨hdate.ready, hdate.index_le, hdate.commands⟩

/-- No step damages a line between writer and queue. -/
theorem PipelineStep.intact (hpages : ∀ page ∈ action.pages, PageUrl (cstr page))
    {event : PipelineEvent} (hstep : PipelineStep workersCount fifoFilename action p event q)
    (hfree : event.NulFree) (hdate : p.UpToDate action) (hintact : p.Intact items) :
    q.Intact items := by
  cases hstep with
  | append line hline hfits => exact hintact.append .other hline hfits hfree
  | refresh loop output hnext => exact hintact.refresh hdate hpages hnext
  | read dequeues hroom => exact hintact.read hroom
  | take => exact hintact.take

end Steps

/-! ### Every run -/

section Runs

variable {workersCount : ℕ} {fifoFilename : Block} {action : Action} {items : List (List UInt8)}
  {p : Pipeline}

/-- The runs in which nobody writes a NUL. -/
def nulFreePipeline (workersCount : ℕ) (fifoFilename : Block) (action : Action)
    (items : List (List UInt8)) : TransitionSystem Pipeline PipelineEvent :=
  (pipeline workersCount fifoFilename action items).restrict fun _ event => event.NulFree

theorem upToDate_of_reachable (hpages : ∀ page ∈ action.pages, PageUrl (cstr page))
    (hreach : (nulFreePipeline workersCount fifoFilename action items).Reachable p) :
    p.UpToDate action := by
  refine hreach.invariant ?_ ?_
  · intro s hstart
    exact hstart.upToDate
  · intro s event t _ hdate hstep
    exact hstep.1.upToDate hpages hdate

theorem intact_of_reachable (hpages : ∀ page ∈ action.pages, PageUrl (cstr page))
    (hreach : (nulFreePipeline workersCount fifoFilename action items).Reachable p) :
    p.Intact items := by
  refine hreach.invariant ?_ ?_
  · intro s hstart
    exact hstart.intact
  · intro s event t hprior hintact hstep
    exact hstep.1.intact hpages hstep.2 (upToDate_of_reachable hpages hprior) hintact

/-- The loop of the UPDATE ends behind the last page. -/
theorem Pipeline.UpToDate.of_over (hdate : p.UpToDate action) (hover : p.loop.next action = none) :
    p.commands = action.pages.map pageCommand := by
  have hlast : action.pages.length ≤ p.loop.index := by
    rw [← List.getElem?_eq_none_iff, ← Action.refresh_eq_getElem? hdate.index_le]
    -- an iteration that finds a page goes on, whether the page fits or not
    cases hpage : action.refresh p.loop.index with
    | none => rfl
    | some page =>
      rw [UpdateLoop.next, hpage] at hover
      dsimp only at hover
      split_ifs at hover
  rw [hdate.commands, List.take_of_length_le hlast]

theorem forall₂_decodes {pages : List Block} (hpages : ∀ page ∈ pages, PageUrl (cstr page)) :
    List.Forall₂ Decodes (pages.map pageCommand) pages := by
  rw [List.forall₂_map_left_iff, List.forall₂_same]
  exact fun page hpage => decodes_of_pageUrl (hpages page hpage)

end Runs

/-- In every run in which the other writers append lines without NULs too, the lines
written are those the queue received and those still on their way, in order; once the
FIFO is empty it has received them all. The lines the UPDATE wrote are as many as the
pages its loop has passed, all of them when it is over, and decode to these pages one
by one. This rests on the `strcpy` in `read_buffer` copying from left to right, as do all
results about what `socket_cb` makes of a chunk with two lines or more. -/
theorem update_commands_decoded (workersCount : ℕ) (fifoFilename : Block) (action : Action)
    (items : List (List UInt8)) (hpages : ∀ page ∈ action.pages, PageUrl (cstr page))
    (p : Pipeline)
    (hreach : (nulFreePipeline workersCount fifoFilename action items).Reachable p) :
    p.writtenLines =
        p.accepted ++ (frame newline (cstr p.worker.cacheBuffer) p.fifo).1 ∧
      (p.fifo = [] → p.accepted = p.writtenLines) ∧
      (∃ taken queued, items ++ p.accepted = taken ++ queued ∧ p.shared.queue.Holds queued) ∧
      List.Forall₂ Decodes p.commands (action.pages.take p.loop.index) ∧
      (p.loop.next action = none → List.Forall₂ Decodes p.commands action.pages) := by
  have hintact := intact_of_reachable hpages hreach
  have hdate := upToDate_of_reachable hpages hreach
  refine ⟨hintact.framed, ?_, hintact.queued, ?_, ?_⟩
  · intro hempty
    rw [hintact.framed, hempty]
    exact (List.append_nil _).symm
  · rw [hdate.commands]
    exact forall₂_decodes fun page hpage => hpages page (List.mem_of_mem_take hpage)
  · intro hover
    rw [hdate.of_over hover]
    exact forall₂_decodes hpages

/-- An action with one page. -/
def onePageAction : Action := ⟨ascii "softactiva", some [some (ascii "a.com/")], 1⟩

theorem pageUrl_onePageAction : ∀ page ∈ onePageAction.pages, PageUrl (cstr page) := by
  have hpages : onePageAction.pages = [ascii "a.com/"] := rfl
  rw [hpages]
  simp only [List.mem_singleton, forall_eq]
  exact ⟨by decide, by decide, by decide, by decide⟩

/-- The pipeline before the UPDATE of the action, with an empty queue. -/
def freshPipeline : Pipeline where
  fifo := []
  worker := .fresh
  shared := .fresh fun _ => List.replicate bufferSize 0
  loop := .start []
  written := []
  accepted := []

theorem start_freshPipeline : freshPipeline.Start [] where
  fifo := rfl
  cache := by decide
  running := rfl
  queue := fifoInit_holds (fun _ => List.length_replicate) (by decide)
  loop := ⟨[], rfl⟩
  written := rfl
  accepted := rfl

/-- The one page of the action is written, read and received. -/
theorem update_commands_decoded_one_page :
    ∃ p, (nulFreePipeline 2 (ascii "queral.fifo") onePageAction []).Reachable p ∧
      p.accepted = [ascii "CACHE a.com/"] ∧
      List.Forall₂ Decodes p.commands onePageAction.pages := by
  have hstart : (nulFreePipeline 2 (ascii "queral.fifo") onePageAction []).Reachable
      freshPipeline := .start start_freshPipeline
  have hwritten := hstart.next ⟨.refresh _ _ rfl, trivial⟩
  have hread := hwritten.next ⟨.read [] ⟨by decide, trivial⟩, trivial⟩
  obtain ⟨-, hreceived, -, -, hdecodes⟩ := update_commands_decoded 2 (ascii "queral.fifo")
    onePageAction [] pageUrl_onePageAction _ hread
  exact ⟨_, hread, hreceived rfl, hdecodes rfl⟩

/-- A window that starts with a NUL is read as no text. -/
theorem accepted_of_nul_first (workersCount : ℕ) (w : SocketWorker) {s : Shared}
    (hrunning : s.shouldRun = true) (rest : List UInt8) (dequeues : List ℕ) :
    (socketCb workersCount w s (.data (0 :: rest)) dequeues).accepted = [] := by
  have htext : strchr (w.fill (0 :: rest)).readBuffer newline = none := by
    simp [SocketWorker.fill, store, strchr, cstr]
  rw [socketCb_of_data workersCount w hrunning (List.cons_ne_nil 0 rest),
    socketCbLoop_of_none htext]

/-- A NUL in the line of another writer, and the command that is read with it is lost. -/
theorem update_command_lost_behind_nul :
    (∀ page ∈ onePageAction.pages, PageUrl (cstr page)) ∧
      ∃ p, (pipeline 2 (ascii "queral.fifo") onePageAction []).Reachable p ∧ p.fifo = [] ∧
        p.commands = onePageAction.pages.map pageCommand ∧ p.accepted = [] := by
  have hstart : (pipeline 2 (ascii "queral.fifo") onePageAction []).Reachable freshPipeline :=
    .start start_freshPipeline
  have hother := hstart.next (.append [0] (by decide) (by decide))
  have hwritten := hother.next (.refresh _ _ rfl)
  have hread := hwritten.next (.read [] ⟨by decide, by decide, trivial⟩)
  exact ⟨pageUrl_onePageAction, _, hread, rfl, rfl, accepted_of_nul_first 2 _ rfl _ []⟩

end EasyForetell
