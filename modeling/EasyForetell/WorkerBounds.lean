import EasyForetell.UpdatePipeline
import EasyForetell.Worker

/-!
# The local buffers of a worker (queral.c, worker_thread)

The length tests that guard `new_command` and `key` count the newline of a command, or
no more than the key, but not the NUL behind them. A command or a key that misses its
buffer by that one byte is accepted, and its NUL is written behind the buffer; all
shorter ones fit and all longer ones are refused.

## Main results

* `update_exact_iff`: when the UPDATE branch writes what fits and keeps to `new_command`
* `create_key_exact_iff`: when `create_key` accepts what fits and keeps to `out`
-/

namespace EasyForetell

open Memory

/-! ### The commands of an UPDATE -/

/-- What is to happen for a page: its command is written if it fits in `new_command`
with its NUL, otherwise a message is logged. -/
def pageOperations (fifoFilename : Block) (access : FifoAccess) (page : Block) : List Operation :=
  let line := pageCommand page ++ [newline]
  if line.length + 1 ≤ bufferSize then
    let written := writeFifo fifoFilename access [] (line ++ [0])
    .write written.1 :: written.2.2.map .log
  else
    [.log ⟨.error, ascii "Maximum buffer length exceeded: '" ++ ascii (toString bufferSize) ++
      ascii "'"⟩]

/-- The UPDATE branch stays in `new_command`, and does for every page, in order, what is
to happen for it. -/
structure UpdateExact (settings : Settings) (responses : Responses) (w : Worker) (action : Action) :
    Prop where
  inside : (handleUpdate settings responses w).worker.newCommand.length ≤ bufferSize
  operations : (handleUpdate settings responses w).operations =
    action.pages.zipIdx.flatMap fun page =>
      pageOperations settings.fifoFilename (responses.access page.2) page.1

section Update

variable {action : Action} {loop : UpdateLoop} {page : Block}

/-- What `write_fifo` does depends on the string only. -/
theorem writeFifo_congr (fifoFilename : Block) (access : FifoAccess) (fifo : List UInt8)
    {str str' : Block} (hstring : cstr str = cstr str') :
    writeFifo fifoFilename access fifo str = writeFifo fifoFilename access fifo str' := by
  unfold writeFifo strlen
  rw [hstring]

theorem length_pageCommand (page : Block) : (pageCommand page).length = 6 + strlen page := by
  rw [pageCommand, List.length_append, strlen]
  rfl

theorem UpdateLoop.Ready.length1_le (hready : loop.Ready) :
    loop.length1 = 6 ∧ 6 ≤ loop.newCommand.length := by
  have hinside := strlen_le_length loop.newCommand
  exact ⟨hready.length1_eq, hready.command.length_le.trans hinside⟩

/-- The NUL that cuts `new_command` back takes the seventh byte. -/
theorem UpdateLoop.Ready.length_cut (hready : loop.Ready) :
    (store loop.newCommand loop.length1 [0]).length = max loop.newCommand.length 7 := by
  obtain ⟨hlength1, hinside⟩ := hready.length1_le
  rw [length_store (by omega), hlength1]
  rfl

/-- With its newline and NUL a command takes eight bytes more than its URL. -/
theorem UpdateLoop.Ready.length_built (hready : loop.Ready) (page : Block) :
    (loop.built page).length = max loop.newCommand.length (strlen page + 8) := by
  have hcut : strlen (store loop.newCommand loop.length1 [0]) = 6 := by
    rw [strlen, hready.cstr_cut]
    rfl
  have hpaged : strlen (strncat (store loop.newCommand loop.length1 [0]) page (strlen page)) =
      6 + strlen page := by
    rw [strlen, cstr_strncat, List.length_append, strlen, List.take_length, hready.cstr_cut]
    rfl
  have hnewline : strlen [newline] = 1 := by decide
  rw [built, length_strcat, length_strncat, hready.length_cut, hcut, hpaged, hnewline]
  omega

/-- A page that fails the length test is logged. -/
theorem UpdateLoop.Ready.next_of_long (hready : loop.Ready)
    (hpage : action.refresh loop.index = some page) (hlong : bufferSize < strlen page + 7) :
    ∃ newCommand, loop.next action =
        some ({ loop with index := loop.index + 1, newCommand }, .message ⟨.error,
          ascii "Maximum buffer length exceeded: '" ++ ascii (toString bufferSize) ++ ascii "'"⟩) ∧
      newCommand.length = max loop.newCommand.length 7 ∧
      UpdateLoop.Ready { loop with index := loop.index + 1, newCommand } := by
  obtain ⟨hlength1, -⟩ := hready.length1_le
  refine ⟨_, ?_, hready.length_cut, ⟨hready.length1_eq, ?_⟩⟩
  · simp only [UpdateLoop.next, hpage]
    rw [if_neg (by omega)]
  · rw [hready.cstr_cut]

/-- An iteration for a page stays in `new_command` if and only if the page does not take
exactly one byte too many, and then it does what is to happen for the page. -/
theorem updateLoop_page (settings : Settings) (access : ℕ → FifoAccess) (count : ℕ)
    (hready : loop.Ready) (hpage : action.refresh loop.index = some page) :
    ∃ (loop' : UpdateLoop) (operations : List Operation), loop'.index = loop.index + 1 ∧
      loop'.Ready ∧
      (loop'.newCommand.length ≤ bufferSize ↔
        loop.newCommand.length ≤ bufferSize ∧ strlen page + 7 ≠ bufferSize) ∧
      updateLoop settings access action (count + 1) loop =
        ((updateLoop settings access action count loop').1,
          operations ++ (updateLoop settings access action count loop').2) ∧
      (strlen page + 7 ≠ bufferSize →
        operations = pageOperations settings.fifoFilename (access loop.index) page) := by
  have hlength : (pageCommand page ++ [newline]).length + 1 = strlen page + 8 := by
    rw [List.length_append, length_pageCommand, List.length_singleton]
    omega
  obtain ⟨hlength1, -⟩ := hready.length1_le
  by_cases hshort : strlen page + 7 ≤ bufferSize
  · -- the command fits, perhaps with its last byte behind the buffer
    have hnext := UpdateLoop.next_of_fits hpage (by omega)
    obtain ⟨hbuilt, hagain⟩ := hready.cstr_built page
    have hstring : cstr (loop.built page) = cstr (pageCommand page ++ [newline] ++ [0]) := by
      rw [← pageCommand] at hbuilt
      rw [cstr_append_nul (hbuilt ▸ nul_notMem_cstr (loop.built page)), hbuilt]
    refine ⟨_, _, rfl, hagain, ?_, by rw [updateLoop, hnext], fun hexact => ?_⟩
    · dsimp only
      rw [hready.length_built]
      omega
    · -- with its NUL the command fits too
      rw [pageOperations, if_pos (by omega), writeFifo_congr _ _ _ hstring]
  · -- the page is skipped, and leaves the buffer as long as it was
    obtain ⟨newCommand, hnext, hsize, hagain⟩ := hready.next_of_long hpage (by omega)
    have hpositive : 7 ≤ bufferSize := by decide
    refine ⟨_, [_], rfl, hagain, ?_, by rw [updateLoop, hnext]; rfl, fun _ => ?_⟩
    · dsimp only
      rw [hsize]
      omega
    · rw [pageOperations, if_neg (by omega)]

/-- The loop of the UPDATE branch over the pages from its index on: it stays in
`new_command` if and only if no page takes exactly one byte too many, and then it does
what is to happen for every page. -/
theorem updateLoop_spec (settings : Settings) (access : ℕ → FifoAccess) {count : ℕ}
    (hready : loop.Ready) (hindex : loop.index ≤ action.pages.length)
    (hcount : action.pages.length ≤ loop.index + count) :
    ((updateLoop settings access action count loop).1.newCommand.length ≤ bufferSize ↔
        loop.newCommand.length ≤ bufferSize ∧
          ∀ page ∈ action.pages.drop loop.index, strlen page + 7 ≠ bufferSize) ∧
      ((∀ page ∈ action.pages.drop loop.index, strlen page + 7 ≠ bufferSize) →
        (updateLoop settings access action count loop).2 =
          ((action.pages.drop loop.index).zipIdx loop.index).flatMap fun page =>
            pageOperations settings.fifoFilename (access page.2) page.1) := by
  induction count generalizing loop with
  | zero =>
    rw [Nat.add_zero] at hcount
    rw [List.drop_eq_nil_of_le hcount]
    simp [updateLoop]
  | succ count ih =>
    have hrefresh := Action.refresh_eq_getElem? hindex
    rcases hindex.lt_or_eq with hlater | hover
    · -- one more page
      have hdrop := List.drop_eq_getElem_cons hlater
      have hpage : action.refresh loop.index = some action.pages[loop.index] := by
        rw [hrefresh, List.getElem?_eq_getElem hlater]
      generalize action.pages[loop.index] = page at hdrop hpage
      obtain ⟨loop', operations, hnext, hagain, hstays, hdone, hexact⟩ :=
        updateLoop_page settings access count hready hpage
      obtain ⟨hinside, hoperations⟩ := ih hagain (by omega) (by omega)
      rw [hnext] at hinside hoperations
      rw [hdrop, hdone]
      simp only [List.forall_mem_cons, List.zipIdx_cons, List.flatMap_cons]
      refine ⟨?_, fun hpages => ?_⟩
      · rw [hinside, hstays, and_assoc]
      · rw [hexact hpages.1, hoperations hpages.2]
    · -- the loop is over
      have hnone : loop.next action = none := by
        rw [UpdateLoop.next, hrefresh, hover, List.getElem?_eq_none (Nat.le_refl _)]
      rw [hover, List.drop_length]
      simp [updateLoop, hnone]

theorem length_pagesOf_le (count : ℕ) (slots : List (Option Block)) :
    (pagesOf count slots).length ≤ count := by
  induction slots generalizing count with
  | nil => simp [pagesOf]
  | cons slot slots ih =>
    cases count with
    | zero => simp [pagesOf]
    | succ count =>
      cases slot with
      | none => simp [pagesOf]
      | some page => simpa [pagesOf] using ih count

theorem UpdateLoop.length_start (newCommand : Block) :
    (UpdateLoop.start newCommand).newCommand.length = max newCommand.length 7 := by
  have hcommand : strlen cacheCommand = 5 := by decide
  have hspace : strlen [space] = 1 := by decide
  have hcopied : strlen (strcpy newCommand cacheCommand) = 5 := by
    rw [strlen, cstr_strcpy, ← strlen, hcommand]
  rw [start, length_strcat, length_strcpy, hcommand, hspace, hcopied]
  omega

theorem handleUpdate_of_found {settings : Settings} {responses : Responses} {w : Worker}
    {index : ℕ} (hfound : findAction settings.actions w.job = .found index action) :
    handleUpdate settings responses w =
      ⟨{ w with newCommand := (updateLoop settings responses.access action action.count
          (.start w.newCommand)).1.newCommand },
        (updateLoop settings responses.access action action.count (.start w.newCommand)).2⟩ := by
  rw [handleUpdate, hfound]

end Update

/-- The UPDATE branch of a worker stays in `new_command`, writes the command of every
page that fits and logs the others, if and only if no page has a URL with which the
command and its newline take exactly `BUFFER_SIZE` bytes. -/
theorem update_exact_iff (settings : Settings) (responses : Responses) (w : Worker) (index : ℕ)
    (action : Action) (hfound : findAction settings.actions w.job = .found index action)
    (hsize : w.newCommand.length ≤ bufferSize) :
    UpdateExact settings responses w action ↔
      ∀ page ∈ action.pages, (pageCommand page ++ [newline]).length ≠ bufferSize := by
  obtain ⟨hinside, hoperations⟩ := updateLoop_spec settings responses.access
    (UpdateLoop.ready_start w.newCommand) (Nat.zero_le _)
    (show action.pages.length ≤ 0 + action.count by
      rw [Nat.zero_add]
      exact length_pagesOf_le _ _)
  have hstart : (UpdateLoop.start w.newCommand).newCommand.length ≤ bufferSize := by
    rw [UpdateLoop.length_start]
    exact max_le hsize (by decide)
  have hindex : (UpdateLoop.start w.newCommand).index = 0 := rfl
  rw [hindex, List.drop_zero] at hinside hoperations
  have hlength : ∀ page, (pageCommand page ++ [newline]).length = strlen page + 7 := by
    intro page
    rw [List.length_append, length_pageCommand, List.length_singleton]
    omega
  -- a page is written past the buffer exactly when its command fills it without the NUL
  simp only [hlength]
  constructor
  · rintro ⟨hkept, -⟩
    rw [handleUpdate_of_found hfound] at hkept
    exact (hinside.mp hkept).2
  · intro hpages
    refine ⟨?_, ?_⟩
    · rw [handleUpdate_of_found hfound]
      exact hinside.mpr ⟨hstart, hpages⟩
    · rw [handleUpdate_of_found hfound]
      exact hoperations hpages

/-- A cache of one page. -/
def pageAction (page : Block) : Action := ⟨ascii "a" ++ [0], some [some page], 1⟩

/-- Settings with this cache. -/
def pageSettings (page : Block) : Settings where
  actions := some [.action (pageAction page), .null]
  keyPrefix := ascii "__memc_"
  expiration := 7200
  fifoFilename := ascii "queral.fifo"
  tame := by
    intro name
    simp only [findAction, findActionFrom]
    split_ifs <;> exact nofun

/-- A worker that is to update it. -/
def updatingWorker : Worker :=
  { exampleWorker with job := ascii "a" ++ [0], newCommand := List.replicate bufferSize 0 }

theorem findAction_pageSettings (page : Block) :
    findAction (pageSettings page).actions updatingWorker.job = .found 0 (pageAction page) :=
  rfl

/-- A short page is written. -/
theorem update_exact_short_page :
    UpdateExact (pageSettings (ascii "u" ++ [0])) (exampleResponses [] []) updatingWorker
      (pageAction (ascii "u" ++ [0])) := by
  refine (update_exact_iff _ _ _ 0 _ (findAction_pageSettings _)
    (by simp [updatingWorker])).mpr ?_
  intro page hpage
  obtain rfl : page = ascii "u" ++ [0] := by simpa [pageAction, Action.pages, pagesOf] using hpage
  decide

/-- With a URL of 248 bytes the newline takes the last byte of `new_command`, and the
NUL goes behind it. -/
theorem update_overruns_new_command :
    ¬ UpdateExact (pageSettings (List.replicate 248 117 ++ [0])) (exampleResponses [] [])
      updatingWorker (pageAction (List.replicate 248 117 ++ [0])) := by
  have hpage : strlen (List.replicate 248 117 ++ [0]) = 248 :=
    strlen_replicate_append_nul (by decide) 248
  generalize (List.replicate 248 117 ++ [0] : Block) = page at hpage ⊢
  rintro ⟨hinside, -⟩
  rw [handleUpdate_of_found (findAction_pageSettings page)] at hinside
  obtain ⟨hspec, -⟩ := updateLoop_spec (pageSettings page) (exampleResponses [] []).access
    (UpdateLoop.ready_start updatingWorker.newCommand) (Nat.zero_le _)
    (show (pageAction page).pages.length ≤ 0 + 1 from Nat.le_refl 1)
  exact (hspec.mp hinside).2 page List.mem_cons_self (by rw [hpage]; rfl)

/-! ### The key of a CACHE job -/

/-- `create_key` returns 1 for a key that is shorter than `MEMCACHED_MAX_KEY` and fits
in `out` with its NUL, and puts it there; otherwise it returns -1 and leaves `out`
alone. -/
def KeyExact (out : Block) (outLen : ℕ) (keyPrefix url : Block) : Prop :=
  let created := createKey out outLen keyPrefix url
  let key := cstr keyPrefix ++ cstr url
  if key.length < memcachedMaxKey ∧ key.length + 1 ≤ outLen then
    created.res = 1 ∧ cstr created.out = key ∧ created.out.length ≤ outLen
  else created.res = -1 ∧ created.out = out

section Key

variable {keyPrefix url : Block} {outLen : ℕ}

/-- An accepted key takes one byte more than its length. -/
theorem createKey_of_accepted (out : Block)
    (haccepted : strlen keyPrefix + strlen url < memcachedMaxKey ∧
      strlen keyPrefix + strlen url ≤ outLen) :
    (createKey out outLen keyPrefix url).res = 1 ∧
      cstr (createKey out outLen keyPrefix url).out = cstr keyPrefix ++ cstr url ∧
      (createKey out outLen keyPrefix url).out.length =
        max out.length (strlen keyPrefix + strlen url + 1) := by
  have hcopied : strlen (strcpy out keyPrefix) = strlen keyPrefix := by
    rw [strlen, cstr_strcpy, strlen]
  simp only [createKey, if_pos haccepted, cstr_strcat, cstr_strcpy, length_strcat, length_strcpy,
    hcopied, true_and]
  omega

theorem createKey_of_refused (out : Block)
    (hrefused : ¬ (strlen keyPrefix + strlen url < memcachedMaxKey ∧
      strlen keyPrefix + strlen url ≤ outLen)) :
    (createKey out outLen keyPrefix url).res = -1 ∧
      (createKey out outLen keyPrefix url).out = out := by
  simp only [createKey, if_neg hrefused, true_and]

theorem keyExact_iff {out : Block} (hsize : out.length ≤ outLen) :
    KeyExact out outLen keyPrefix url ↔
      ¬ (strlen keyPrefix + strlen url = outLen ∧ outLen < memcachedMaxKey) := by
  have hkey : (cstr keyPrefix ++ cstr url).length = strlen keyPrefix + strlen url :=
    List.length_append
  simp only [KeyExact, hkey]
  by_cases haccepted : strlen keyPrefix + strlen url < memcachedMaxKey ∧
      strlen keyPrefix + strlen url ≤ outLen
  · obtain ⟨hres, hstring, hlength⟩ := createKey_of_accepted out haccepted
    rw [hres, hlength, hstring]
    split_ifs with hfits
    · exact iff_of_true ⟨rfl, rfl, by omega⟩ (by omega)
    · -- the test lets the key through that has no room for its NUL
      refine iff_of_false (fun h => ?_) (by omega)
      cases h.1
  · obtain ⟨hres, hout⟩ := createKey_of_refused out haccepted
    rw [hres, hout, if_neg (by omega)]
    exact iff_of_true ⟨rfl, rfl⟩ (by omega)

/-- A CACHE job leaves in `key` what `create_key` made of it. -/
theorem key_handleJob {settings : Settings} {responses : Responses} {w : Worker} {slot : Block}
    (hcommand : (w.parse slot).res = .cache) :
    (handleJob settings responses w slot).worker.key =
      (createKey w.key (memcachedMaxKey - 1) settings.keyPrefix (w.parse slot).job).out := by
  rw [handleJob_of_cache hcommand, handleCache]
  dsimp only
  split_ifs <;> rfl

end Key

/-- `create_key` accepts exactly the keys that fit if and only if the key is not as long
as `out`, or is refused for `MEMCACHED_MAX_KEY`. A CACHE job stays in the buffer of its
worker if and only if its key is not as long as that buffer. -/
theorem create_key_exact_iff (out : Block) (outLen : ℕ) (keyPrefix url : Block)
    (hsize : out.length ≤ outLen) :
    (KeyExact out outLen keyPrefix url ↔
        ¬ (strlen keyPrefix + strlen url = outLen ∧ outLen < memcachedMaxKey)) ∧
      ∀ (settings : Settings) (responses : Responses) (w : Worker) (slot : Block),
        w.key.length ≤ memcachedMaxKey - 1 → (w.parse slot).res = .cache →
          ((handleJob settings responses w slot).worker.key.length ≤ memcachedMaxKey - 1 ↔
            strlen settings.keyPrefix + strlen (w.parse slot).job ≠ memcachedMaxKey - 1) := by
  refine ⟨keyExact_iff hsize, ?_⟩
  intro settings responses w slot hsize hcommand
  have hmax : memcachedMaxKey = 251 := rfl
  rw [key_handleJob hcommand]
  by_cases haccepted : strlen settings.keyPrefix + strlen (w.parse slot).job < memcachedMaxKey ∧
      strlen settings.keyPrefix + strlen (w.parse slot).job ≤ memcachedMaxKey - 1
  · rw [(createKey_of_accepted w.key haccepted).2.2]
    omega
  · rw [(createKey_of_refused w.key haccepted).2]
    exact iff_of_true hsize (by omega)

/-- A key of eight bytes in nine. -/
theorem create_key_exact_short :
    KeyExact (List.replicate 9 0) 9 (ascii "__memc_" ++ [0]) (ascii "u" ++ [0]) :=
  (create_key_exact_iff (List.replicate 9 0) 9 (ascii "__memc_" ++ [0]) (ascii "u" ++ [0])
    (by decide)).1.mpr (by decide)

/-- A prefix of seven bytes and a URL of 243: the key is accepted for the 250 bytes of
the worker's buffer, and takes 251. -/
theorem create_key_overruns :
    ¬ KeyExact (List.replicate (memcachedMaxKey - 1) 0) (memcachedMaxKey - 1)
      (ascii "__memc_" ++ [0]) (List.replicate 243 117 ++ [0]) := by
  have hurl : strlen (List.replicate 243 117 ++ [0]) = 243 :=
    strlen_replicate_append_nul (by decide) 243
  have hprefix : strlen (ascii "__memc_" ++ [0]) = 7 := by decide
  rw [keyExact_iff (by simp), hurl, hprefix]
  decide

end EasyForetell
