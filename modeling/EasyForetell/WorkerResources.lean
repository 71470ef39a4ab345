import EasyForetell.Ownership

/-!
# What a worker acquires and releases (queral.c, curl_client.c, memcached_client.c)

A worker gets a download buffer, a handle of libcurl and one of libmemcached before it takes its
first job, and parses a list of servers for every line of `memcached_servers`. Whether it fails on
the way or is told to stop, it ends with the same two calls. The second of them looks at
`servers`, which nobody writes before the first line is parsed.

## Main results

* `connectServers_spec`: what the loop over the servers leaves
* `worker_releases_iff`: when a worker releases what it acquired
-/

namespace EasyForetell

open Memory Theory

/-- What is acquired for a worker: the buffer, the handle of libcurl, that of libmemcached, and a
list of servers. -/
inductive Resource
  | buffer
  | easy
  | memc
  | servers

/-- What the libraries and `malloc` have given away. -/
abbrev ResourceHeap := Heap Resource

/-- The pointers of a `worker_t`. -/
structure WorkerHandles where
  memory : Option ℕ
  curl : Option ℕ
  memc : Option ℕ
  servers : Pointer

/-- What becomes of a line of servers: whether `memcached_servers_parse` makes a list of it, and
the text of the error where `memcached_server_push` does not return `MEMCACHED_SUCCESS`. -/
structure ConnectAnswer where
  parsed : Bool
  failure : Option (List UInt8)

/-- What the libraries answer while a worker starts: whether there is a buffer, a handle of either
library, and what becomes of each line. -/
structure StartAnswers where
  memory : Bool
  easy : Bool
  memc : Bool
  connect : ℕ → ConnectAnswer

namespace ResourceHeap

/-- Get something, or NULL. -/
def acquire (h : ResourceHeap) (available : Bool) (resource : Resource) :
    Option ℕ × ResourceHeap :=
  if available then (some h.fresh, h.alloc resource) else (none, h)

/-- Give something back, unless it is NULL. -/
def release (h : ResourceHeap) : Option ℕ → Option ResourceHeap
  | none => some h
  | some a => h.free a

/-- What a function returns, the pointers it leaves, what is acquired then, and the messages. -/
structure Outcome where
  res : ℤ
  handles : WorkerHandles
  heap : ResourceHeap
  logs : List LogMessage

/-- `curl_init`, for the `curl_t` at an address. The handle of libcurl is not looked at. -/
def curlInit (h : ResourceHeap) (address : ℕ) (memory easy : Bool) (handles : WorkerHandles) :
    Outcome :=
  let buffer := acquire h memory .buffer
  let curl := acquire buffer.2 easy .easy
  let handles := { handles with memory := buffer.1, curl := curl.1 }
  if address ≠ 0 then ⟨1, handles, curl.2, []⟩
  else ⟨-1, handles, curl.2, [⟨.error, ascii "Failed to create cURL"⟩]⟩

/-- `curl_destroy`. -/
def curlDestroy (h : ResourceHeap) (handles : WorkerHandles) : Option ResourceHeap :=
  (release h handles.memory).bind fun h => release h handles.curl

/-- `memcached_init`. -/
def memcachedInit (h : ResourceHeap) (available : Bool) : Option ℕ × ResourceHeap :=
  acquire h available .memc

/-- `memcached_connect_`. -/
def memcachedConnect (h : ResourceHeap) (answer : ConnectAnswer) (handles : WorkerHandles) :
    Option Outcome :=
  let list := acquire h answer.parsed .servers
  match list.1 with
  | none => some ⟨-1, { handles with servers := .null }, list.2,
      [⟨.error, ascii "Failed to parse memcached server list"⟩]⟩
  | some a => (list.2.free a).map fun h =>
      match answer.failure with
      | none => ⟨1, { handles with servers := .null }, h, []⟩
      | some text => ⟨-1, { handles with servers := .null }, h,
          [⟨.error, ascii "Failed to connect memcached servers from the list: " ++ text⟩]⟩

/-- `memcached_destroy`. It has no result where it follows a pointer that was never written. -/
def memcachedDestroy (h : ResourceHeap) (handles : WorkerHandles) : Option ResourceHeap :=
  match handles.servers with
  | .uninitialised => none
  | .null => release h handles.memc
  | .to list => (h.free list).bind fun h => release h handles.memc

/-- The loop of `worker_thread` over the lines of `memcached_servers`, from an index on. -/
def connectServers (workerId : ℕ) (connect : ℕ → ConnectAnswer) :
    List (Option Block) → ℕ → ResourceHeap → WorkerHandles → Option Outcome
  | [], _, h, handles => some ⟨1, handles, h, []⟩
  | none :: lines, i, h, handles => connectServers workerId connect lines (i + 1) h handles
  | some line :: lines, i, h, handles =>
    if cstr line = [] then connectServers workerId connect lines (i + 1) h handles
    else
      (memcachedConnect h (connect i) handles).bind fun connected =>
        if connected.res = -1 then
          some { connected with logs := connected.logs ++ [⟨.error,
            ascii "Failed to connect memcached " ++ cstr line ++ ascii " at worker " ++
              ascii (toString workerId)⟩] }
        else
          (connectServers workerId connect lines (i + 1) connected.heap connected.handles).map
            fun later => { later with logs := connected.logs ++ later.logs }

/-- `worker_thread` up to its first job: the worker fails, or it goes on with its jobs. The
`servers` of the pool are as `malloc` left them. -/
def startWorker (h : ResourceHeap) (workerId address : ℕ) (answers : StartAnswers)
    (memcachedServers : Option (List (Option Block))) : Option Outcome :=
  let curl := curlInit h address answers.memory answers.easy ⟨none, none, none, .uninitialised⟩
  if curl.res = -1 then
    some { curl with logs := curl.logs ++ [⟨.error,
      ascii "Failed to create cURL at worker " ++ ascii (toString workerId)⟩] }
  else
    let memc := memcachedInit curl.heap answers.memc
    let handles := { curl.handles with memc := memc.1 }
    match memcachedServers with
    | some (line :: lines) =>
      connectServers workerId answers.connect (line :: lines) 0 memc.2 handles
    | _ => some ⟨-1, handles, memc.2, [⟨.error,
        ascii "Failed to get memcached server list at worker " ++ ascii (toString workerId)⟩]⟩

/-- The end of `worker_thread`, after a failure and after the last job alike. -/
def endWorker (h : ResourceHeap) (handles : WorkerHandles) : Option ResourceHeap :=
  (curlDestroy h handles).bind fun h => memcachedDestroy h handles

/-- What is acquired when `worker_thread` has returned. Its jobs acquire nothing that stays. -/
def workerThread (h : ResourceHeap) (workerId address : ℕ) (answers : StartAnswers)
    (memcachedServers : Option (List (Option Block))) : Option ResourceHeap :=
  (startWorker h workerId address answers memcachedServers).bind fun started =>
    -- without a `curl_t` nothing is given back
    if address = 0 then some started.heap else endWorker started.heap started.handles

end ResourceHeap

/-- What the pointers of a worker point to, in the order in which it was acquired. -/
def WorkerHandles.owned (handles : WorkerHandles) : List ℕ :=
  handles.memory.toList ++ handles.curl.toList ++ handles.memc.toList

section Handles

variable {h h₀ : ResourceHeap} {owned : List ℕ} {handles : WorkerHandles}

/-- These addresses, each one once, are all that was acquired since `h₀`. -/
structure Held (h₀ h : ResourceHeap) (owned : List ℕ) : Prop where
  grown : Heap.Grown h₀ h {a | a ∈ owned}
  nodup : owned.Nodup

theorem Held.nil (h : ResourceHeap) : Held h h [] :=
  ⟨(Heap.Grown.refl h).congr fun a => by simp, List.nodup_nil⟩

/-- What is acquired is new. -/
theorem Held.acquire (hheld : Held h₀ h owned) (available : Bool) (resource : Resource) :
    Held h₀ (ResourceHeap.acquire h available resource).2
      (owned ++ (ResourceHeap.acquire h available resource).1.toList) := by
  cases available with
  | false => simpa [ResourceHeap.acquire] using hheld
  | true =>
    have hnew : h.fresh ∉ owned := fun hmem => hheld.grown.live _ hmem (h.unused _ le_rfl)
    refine ⟨(hheld.grown.trans (.alloc h resource)).congr fun a => ?_, ?_⟩
    · simp [ResourceHeap.acquire, or_comm]
    · refine List.nodup_append.mpr ⟨hheld.nodup, List.pairwise_singleton _ _, fun a ha b hb => ?_⟩
      obtain rfl := List.mem_singleton.mp hb
      rintro rfl
      exact hnew ha

theorem release_eq_freeAll (h : ResourceHeap) (pointer : Option ℕ) :
    ResourceHeap.release h pointer = h.freeAll pointer.toList := by
  cases pointer with
  | none => rfl
  | some a => simp [ResourceHeap.release, Heap.freeAll]

/-- With `servers` NULL the end of a worker frees what its pointers point to. -/
theorem endWorker_eq_freeAll (hservers : handles.servers = .null) :
    ResourceHeap.endWorker h handles = h.freeAll handles.owned := by
  simp only [ResourceHeap.endWorker, ResourceHeap.curlDestroy, ResourceHeap.memcachedDestroy,
    hservers, release_eq_freeAll, WorkerHandles.owned, Heap.freeAll, List.foldlM_append]
  rfl

/-- So it releases everything. -/
theorem Held.exists_endWorker (hheld : Held h₀ h handles.owned)
    (hservers : handles.servers = .null) :
    ∃ h', ResourceHeap.endWorker h handles = some h' ∧ h'.cell = h₀.cell := by
  obtain ⟨h', hfree, hleft, -⟩ := hheld.grown.freeAll hheld.nodup fun a ha => ha
  refine ⟨h', (endWorker_eq_freeAll hservers).trans hfree, (hleft.congr fun a => ?_).cell_eq⟩
  simp

/-- A list of servers is given back at once, and `servers` is NULL behind it. -/
theorem Held.exists_connect (hheld : Held h₀ h owned) (answer : ConnectAnswer)
    (handles : WorkerHandles) :
    ∃ connected, ResourceHeap.memcachedConnect h answer handles = some connected ∧
      connected.handles = { handles with servers := .null } ∧ Held h₀ connected.heap owned := by
  cases hparsed : answer.parsed with
  | false =>
    simp only [ResourceHeap.memcachedConnect, ResourceHeap.acquire, hparsed]
    exact ⟨_, rfl, rfl, hheld⟩
  | true =>
    have hnew : h.fresh ∉ owned := fun hmem => hheld.grown.live _ hmem (h.unused _ le_rfl)
    obtain ⟨h', hfree, hleft, -⟩ :=
      (hheld.grown.trans (.alloc h .servers)).free (a := h.fresh) (Or.inr rfl)
    have hheld' : Held h₀ h' owned := by
      refine ⟨hleft.congr fun a => ?_, hheld.nodup⟩
      have hne : a ∈ owned → a ≠ h.fresh := by
        rintro hmem rfl
        exact hnew hmem
      simp only [Set.mem_sdiff, Set.mem_union, Set.mem_ofPred_eq, Set.mem_singleton_iff]
      tauto
    simp only [ResourceHeap.memcachedConnect, ResourceHeap.acquire, hparsed, if_true, hfree,
      Option.map_some]
    cases answer.failure with
    | none => exact ⟨_, rfl, rfl, hheld'⟩
    | some text => exact ⟨_, rfl, rfl, hheld'⟩

/-- The loop over the lines comes to an end with nothing acquired that stays. It leaves `servers`
as it was where every line is empty, and NULL otherwise, whether or not it connects. -/
theorem Held.exists_connectServers (hheld : Held h₀ h owned) (workerId : ℕ)
    (connect : ℕ → ConnectAnswer) (lines : List (Option Block)) (i : ℕ) (handles : WorkerHandles) :
    ∃ started, ResourceHeap.connectServers workerId connect lines i h handles = some started ∧
      Held h₀ started.heap owned ∧
      ((∃ line, some line ∈ lines ∧ cstr line ≠ []) ∧
          started.handles = { handles with servers := .null } ∨
        (∀ line, some line ∈ lines → cstr line = []) ∧ started.handles = handles) := by
  induction lines generalizing i h handles with
  | nil => exact ⟨_, rfl, hheld, Or.inr ⟨by simp, rfl⟩⟩
  | cons slot lines ih =>
    have hskip : (∀ line, slot = some line → cstr line = []) →
        ResourceHeap.connectServers workerId connect (slot :: lines) i h handles =
          ResourceHeap.connectServers workerId connect lines (i + 1) h handles := by
      intro hempty
      cases slot with
      | none => rfl
      | some line => exact if_pos (hempty line rfl)
    by_cases hempty : ∀ line, slot = some line → cstr line = []
    · -- an empty slot or line is skipped
      obtain ⟨started, hrun, hheld', hservers⟩ := ih hheld (i + 1) handles
      refine ⟨started, (hskip hempty).trans hrun, hheld', hservers.imp ?_ ?_⟩
      · rintro ⟨⟨line, hline, hsome⟩, hnull⟩
        exact ⟨⟨line, List.mem_cons_of_mem _ hline, hsome⟩, hnull⟩
      · rintro ⟨hnone, hsame⟩
        refine ⟨fun line hline => ?_, hsame⟩
        rcases List.mem_cons.mp hline with hfirst | hlater
        · exact hempty line hfirst.symm
        · exact hnone line hlater
    · -- the first line that is not empty
      simp only [not_forall] at hempty
      obtain ⟨line, rfl, hsome⟩ := hempty
      obtain ⟨connected, hconnect, hhandles, hheld'⟩ := hheld.exists_connect (connect i) handles
      simp only [ResourceHeap.connectServers, if_neg hsome, hconnect, Option.bind_some]
      have hfirst : ∃ other, some other ∈ some line :: lines ∧ cstr other ≠ [] :=
        ⟨line, List.mem_cons_self, hsome⟩
      by_cases hfailed : connected.res = -1
      · rw [if_pos hfailed]
        -- the first failure ends the loop
        exact ⟨_, rfl, hheld', Or.inl ⟨hfirst, hhandles⟩⟩
      · obtain ⟨started, hrun, hheld'', hservers⟩ := ih hheld' (i + 1) connected.handles
        rw [if_neg hfailed, hrun]
        refine ⟨_, rfl, hheld'', Or.inl ⟨hfirst, ?_⟩⟩
        rcases hservers with ⟨-, hnull⟩ | ⟨-, hsame⟩
        · exact hnull.trans (by rw [hhandles])
        · exact hsame.trans hhandles

/-- What a worker has when it takes its first job or fails. -/
theorem exists_startWorker (h : ResourceHeap) (workerId : ℕ) {address : ℕ} (haddress : address ≠ 0)
    (answers : StartAnswers) {lines : List (Option Block)} (hlines : lines ≠ []) :
    ∃ started, ResourceHeap.startWorker h workerId address answers (some lines) = some started ∧
      Held h started.heap started.handles.owned ∧
      ((∃ line, some line ∈ lines ∧ cstr line ≠ []) ∧ started.handles.servers = .null ∨
        (∀ line, some line ∈ lines → cstr line = []) ∧
          started.handles.servers = .uninitialised) := by
  obtain ⟨line, lines, rfl⟩ := List.exists_cons_of_ne_nil hlines
  have hheld := (((Held.nil h).acquire answers.memory .buffer).acquire answers.easy .easy).acquire
    answers.memc .memc
  have hres : ¬ (1 : ℤ) = -1 := by decide
  simp only [ResourceHeap.startWorker, ResourceHeap.curlInit, ResourceHeap.memcachedInit,
    if_pos haddress, if_neg hres]
  obtain ⟨started, hrun, hheld', hservers⟩ := hheld.exists_connectServers workerId answers.connect
    (line :: lines) 0 ⟨_, _, _, .uninitialised⟩
  refine ⟨started, hrun, ?_, hservers.imp ?_ ?_⟩
  · rcases hservers with ⟨-, hnull⟩ | ⟨-, hsame⟩
    · rw [hnull]
      exact hheld'
    · rw [hsame]
      exact hheld'
  · rintro ⟨hsome, hnull⟩
    exact ⟨hsome, by rw [hnull]⟩
  · rintro ⟨hnone, hsame⟩
    exact ⟨hnone, by rw [hsame]⟩

end Handles

/-- There is a colon in the line of a server. -/
theorem cstr_serverLine_ne_nil (hostname : Block) (port : ℤ) :
    cstr (serverLine hostname port) ≠ [] := by
  have hfree := nul_notMem_cstr hostname
  rw [serverLine]
  cases hname : cstr hostname with
  | nil => simp [cstr, ascii]
  | cons c text =>
    rw [hname] at hfree
    have hne : c ≠ 0 := fun hzero => hfree (by simp [hzero])
    simp [cstr, hne]

/-- The lines of a list that was read are those of its complete servers, and none is empty. -/
theorem exists_line_iff {allocates : ℕ → Bool} {records : List ServerSetting} {serverCount : ℕ}
    {list : List (Option Block)}
    (hlist : (readMemcachedServers allocates (some records) serverCount).list = some list) :
    list ≠ [] ∧ ((∃ line, some line ∈ list ∧ cstr line ≠ []) ↔
      ∃ record ∈ records, record.line ≠ none) := by
  have hsome : records ≠ [] := by
    rintro rfl
    cases hlist
  simp only [readMemcachedServers, initStringList_of_ne_nil hsome, packServers_eq] at hlist
  obtain rfl := packRecords_fresh hlist
  constructor
  · intro hnil
    have hlength := congrArg List.length hnil
    rw [length_packed (length_lines_le _ _)] at hlength
    exact hsome (List.length_eq_zero_iff.mp hlength)
  · constructor
    · rintro ⟨line, hline, -⟩
      simp only [packed, List.mem_append, List.mem_map, List.mem_replicate, List.mem_filterMap,
        Option.some.injEq, exists_eq_right, reduceCtorEq, and_false, or_false] at hline
      -- a line of the list comes from a complete record
      obtain ⟨text, ⟨record, hrecord, htext⟩, -⟩ := hline
      exact ⟨record, hrecord, by simp [htext]⟩
    · rintro ⟨record, hrecord, hline⟩
      obtain ⟨text, htext⟩ := Option.ne_none_iff_exists'.mp hline
      -- and a complete record has a line with its hostname in it
      refine ⟨dupString text, ?_, ?_⟩
      · simp only [packed, List.mem_append, List.mem_map, List.mem_filterMap]
        exact Or.inl ⟨_, ⟨text, ⟨record, hrecord, htext⟩, rfl⟩, rfl⟩
      · obtain ⟨hostname, port, -, rfl⟩ := ServerSetting.line_eq_some_iff.mp htext
        rw [dupString, cstr_append_nul (nul_notMem_cstr _)]
        exact cstr_serverLine_ne_nil hostname port

/-- Whatever the libraries answer, a worker that starts or fails has what its pointers point to,
each once and nothing else. Its end then releases all of it, once, exactly when one of the servers
read by `main` is complete; with none of them complete it follows a pointer that was never
written. -/
theorem worker_releases_iff (h : ResourceHeap) (workerId address : ℕ) (haddress : address ≠ 0)
    (answers : StartAnswers) (allocates : ℕ → Bool) (records : List ServerSetting)
    (serverCount : ℕ) (list : List (Option Block))
    (hlist : (readMemcachedServers allocates (some records) serverCount).list = some list) :
    (∃ started, ResourceHeap.startWorker h workerId address answers (some list) = some started ∧
      Held h started.heap started.handles.owned) ∧
    ((ResourceHeap.workerThread h workerId address answers (some list)).isSome ↔
      ∃ record ∈ records, record.line ≠ none) ∧
    ∀ h', ResourceHeap.workerThread h workerId address answers (some list) = some h' →
      h'.cell = h.cell := by
  obtain ⟨hlines, hline⟩ := exists_line_iff hlist
  obtain ⟨started, hstart, hheld, hservers⟩ :=
    exists_startWorker h workerId haddress answers hlines
  refine ⟨⟨started, hstart, hheld⟩, ?_⟩
  rw [← hline]
  simp only [ResourceHeap.workerThread, hstart, Option.bind_some, if_neg haddress]
  rcases hservers with ⟨hsome, hnull⟩ | ⟨hnone, huninitialised⟩
  · obtain ⟨h', hend, hsame⟩ := hheld.exists_endWorker hnull
    rw [hend]
    refine ⟨iff_of_true rfl hsome, fun other hother => ?_⟩
    obtain rfl := Option.some.inj hother
    exact hsame
  · -- `memcached.servers` was never written, and is freed all the same
    have hwild : ResourceHeap.endWorker started.heap started.handles = none := by
      simp [ResourceHeap.endWorker, ResourceHeap.memcachedDestroy, huninitialised]
    rw [hwild]
    refine ⟨iff_of_false (by simp) ?_, by simp⟩
    rintro ⟨line, hmem, hsome⟩
    exact hsome (hnone line hmem)

/-- A worker of a daemon with one server that cannot be reached. -/
theorem worker_releases_unreachable :
    ∃ h', ResourceHeap.workerThread .empty 0 8
        ⟨true, true, true, fun _ => ⟨true, some (ascii "CONNECTION FAILURE")⟩⟩
        (some [some (dupString (serverLine (ascii "localhost") 11211))]) = some h' ∧
      h'.cell = (Heap.empty : ResourceHeap).cell := by
  have hlist : (readMemcachedServers (fun _ => true)
      (some [⟨some (ascii "localhost"), some 11211⟩]) 0).list =
        some [some (dupString (serverLine (ascii "localhost") 11211))] := rfl
  obtain ⟨-, hends, hsame⟩ := worker_releases_iff .empty 0 8 (by decide)
    ⟨true, true, true, fun _ => ⟨true, some (ascii "CONNECTION FAILURE")⟩⟩ (fun _ => true)
    [⟨some (ascii "localhost"), some 11211⟩] 0 _ hlist
  obtain ⟨h', hrun⟩ := Option.isSome_iff_exists.mp
    (hends.mpr ⟨_, List.mem_singleton_self _, by simp [ServerSetting.line]⟩)
  exact ⟨h', hrun, hsame h' hrun⟩

end EasyForetell
