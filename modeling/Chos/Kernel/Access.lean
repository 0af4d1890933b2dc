import Chos.Kernel.Frame

/-!
# Access control

Only root edits the list of valid paths, and `write_setchos` lets a text
through when it is `/` or on the list at that moment.  Since no later
operation writes a text, every link of the table stands for a text that was
let through when the link was created.
-/

namespace Chos.Kernel

open Chos.Library

/-- The written bytes before the first newline or NUL. -/
def trim (buf : List UInt8) (count : Nat) : Text :=
  (buf.take count).takeWhile fun byte => byte ≠ '\n'.toUInt8 ∧ byte ≠ 0

theorem scan_eq_length_trim (buf : List UInt8) (remaining i : Nat) :
    scan buf remaining i = i + (trim (buf.drop i) remaining).length := by
  induction remaining generalizing i with
  | zero => simp [scan, trim]
  | succ remaining induction =>
      rw [scan]
      cases rest : buf.drop i with
      | nil =>
          have past : buf.getD i 0 = 0 := by
            rw [List.drop_eq_nil_iff] at rest
            rw [List.getD_eq_getElem?_getD, List.getElem?_eq_none rest]
            rfl
          rw [past, if_neg (fun plain => plain.2 rfl)]
          simp [trim]
      | cons byte tail =>
          have here : buf.getD i 0 = byte := by
            rw [List.getD_eq_getElem?_getD, ← List.head?_drop, rest]
            rfl
          have next : buf.drop (i + 1) = tail := by
            rw [← List.tail_drop, rest]
            rfl
          rw [here, induction, next]
          by_cases plain : byte ≠ '\n'.toUInt8 ∧ byte ≠ 0
          · simp [plain, trim]
            omega
          · rw [if_neg plain]
            simp [plain, trim]

/-- The loop of both write handlers computes the trimmed text. -/
theorem copied_eq_trim (buf : List UInt8) (count : Nat) :
    copied buf count = trim buf count := by
  have isPrefix : trim buf count <+: buf :=
    (List.takeWhile_prefix _).trans (List.take_prefix _ _)
  rw [copied, scan_eq_length_trim, Nat.zero_add, List.drop_zero]
  exact (List.prefix_iff_eq_take.mp isPrefix).symm

theorem trim_of_plain {text : Text} (plain : '\n'.toUInt8 ∉ text)
    (terminated : 0 ∉ text) : trim text text.length = text := by
  rw [trim, List.take_length]
  apply List.takeWhile_eq_self_iff.mpr
  intro byte inside
  simp only [decide_eq_true_eq]
  refine ⟨?_, ?_⟩
  · rintro rfl
    exact plain inside
  · rintro rfl
    exact terminated inside

theorem trim_append_newline {text : Text} (plain : '\n'.toUInt8 ∉ text)
    (terminated : 0 ∉ text) (rest : Text) :
    trim (text ++ '\n'.toUInt8 :: rest)
      (text ++ '\n'.toUInt8 :: rest).length = text := by
  have whole := trim_of_plain plain terminated
  rw [trim, List.take_length] at whole ⊢
  rw [List.takeWhile_append_of_pos (List.takeWhile_eq_self_iff.mp whole)]
  simp

theorem ne_zero_of_mem_trim {buf : List UInt8} {count : Nat} {byte : UInt8}
    (inside : byte ∈ trim buf count) : byte ≠ 0 := by
  have plain := List.mem_takeWhile_imp inside
  rw [decide_eq_true_eq] at plain
  exact plain.2

/-- A trimmed text has no NUL, so it is the whole C string. -/
theorem cString_trim (buf : List UInt8) (count : Nat) :
    cString (trim buf count) = trim buf count := by
  apply List.takeWhile_eq_self_iff.mpr
  intro byte inside
  simpa using ne_zero_of_mem_trim inside

theorem isRootPath_trim {buf : List UInt8} {count : Nat} :
    isRootPath (trim buf count) = true ↔ trim buf count = rootText := by
  have plain : ∀ byte ∈ trim buf count, byte ≠ 0 := by
    intro byte inside
    exact ne_zero_of_mem_trim inside
  unfold isRootPath rootText
  cases content : trim buf count with
  | nil =>
      have different : (0 : UInt8) ≠ '/'.toUInt8 := by decide
      simp [different]
  | cons first rest =>
      cases rest with
      | nil => simp
      | cons second rest =>
          have nonzero := plain second (by simp [content])
          simp [nonzero]

/-- What the list is meant to be: the texts root wrote since the last
reset. -/
def validAfter (valid : List Text) : Event → List Text
  | .writeValid euid buf count _ =>
      if euid ≠ 0 then valid
      else if (buf.take count).head? = some '-'.toUInt8 then []
      else valid ++ [trim buf count]
  | _ => valid

def validTexts (events : List Event) : List Text :=
  events.foldl validAfter []

/-- The kernel list holds these texts, in this order. -/
structure Lists (paths : List ValidPath) (valid : List Text) : Prop where
  texts : paths.map ValidPath.path = valid
  plain : ∀ path ∈ valid, cString path = path

theorem resetvalid_eq_nil (paths : List ValidPath) :
    resetvalid paths = [] := by
  induction paths with
  | nil => rfl
  | cons valid rest induction => exact induction

namespace Lists

variable {paths : List ValidPath} {valid : List Text}

theorem printValid (lists : Lists paths valid) :
    printValid paths = valid.flatMap fun path => path ++ ['\n'.toUInt8] := by
  obtain ⟨texts, plain⟩ := lists
  subst texts
  induction paths with
  | nil => rfl
  | cons first rest induction =>
      have whole := plain first.path (by simp)
      have tail := induction fun path inside =>
        plain path (List.mem_cons_of_mem _ inside)
      rw [Kernel.printValid, whole, tail]
      simp

theorem isValidPath (lists : Lists paths valid) {path : Text}
    (whole : cString path = path) :
    isValidPath path paths = true ↔ path ∈ valid := by
  obtain ⟨texts, plain⟩ := lists
  subst texts
  induction paths with
  | nil => simp [Kernel.isValidPath]
  | cons first rest induction =>
      have firstWhole := plain first.path (by simp)
      have tail := induction fun path inside =>
        plain path (List.mem_cons_of_mem _ inside)
      rw [Kernel.isValidPath, whole, firstWhole, List.map_cons,
        List.mem_cons, ← tail]
      by_cases same : path = first.path <;> simp [same]

theorem accepts (lists : Lists paths valid) (buf : List UInt8)
    (count : Nat) :
    accepts paths (copied buf count) = true ↔
      trim buf count = rootText ∨ trim buf count ∈ valid := by
  rw [copied_eq_trim, Kernel.accepts, Bool.or_eq_true, isRootPath_trim,
    lists.isValidPath (cString_trim buf count)]

end Lists

/-- Writes that pass at least one byte to `valid`, and whose allocations
succeed. -/
def Event.Allocates : Event → Prop
  | .setchos _ _ _ outcome => outcome.textAlloc ∧ outcome.linkAlloc
  | .writeValid _ _ count outcome =>
      1 ≤ count ∧ outcome.pathAlloc ∧ outcome.nodeAlloc
  | _ => True

theorem Lists.writeValid {paths : List ValidPath} {valid : List Text}
    (lists : Lists paths valid) {euid : Nat} {buf : List UInt8}
    {count : Nat} {outcome : ValidOutcome}
    (allocates : (Event.writeValid euid buf count outcome).Allocates) :
    Lists (writeValid euid buf count outcome paths).2
      (validAfter valid (.writeValid euid buf count outcome)) := by
  obtain ⟨nonempty, pathAlloc, nodeAlloc⟩ := allocates
  have dash : (buf.take count).head? = some '-'.toUInt8 ↔
      buf.getD 0 0 = '-'.toUInt8 := by
    obtain ⟨rest, rfl⟩ : ∃ rest, count = rest + 1 :=
      ⟨count - 1, by omega⟩
    have different : (0 : UInt8) ≠ '-'.toUInt8 := by decide
    cases buf with
    | nil => simp [different]
    | cons first tail => simp
  simp only [Kernel.writeValid, validAfter]
  by_cases root : euid = 0
  · by_cases reset : buf.getD 0 0 = '-'.toUInt8
    · rw [if_neg (not_not.mpr root), if_pos reset,
        if_neg (not_not.mpr root), if_pos (dash.mpr reset)]
      refine ⟨?_, by simp⟩
      rw [resetvalid_eq_nil]
      rfl
    · rw [if_neg (not_not.mpr root), if_neg reset, if_pos pathAlloc,
        if_neg (not_not.mpr root), if_neg (mt dash.mp reset)]
      refine ⟨?_, ?_⟩
      · simp [addValidPath, nodeAlloc, lists.texts, copied_eq_trim]
      · intro path inside
        rcases List.mem_append.mp inside with old | new
        · exact lists.plain path old
        · rw [List.mem_singleton.mp new]
          exact cString_trim buf count
  · rw [if_pos root, if_pos root]
    exact lists

namespace Sys

theorem lists_of_taken {state next : Sys} {event : Event}
    {valid : List Text} (lists : Lists state.valid_paths valid)
    (allocates : event.Allocates) (taken : Taken state event next) :
    Lists next.valid_paths (validAfter valid event) := by
  cases taken with
  | writeValid euid buf count outcome => exact lists.writeValid allocates
  | _ => exact lists

theorem lists_of_run {state final : Sys} (sound : state.Sound)
    {valid : List Text} (lists : Lists state.valid_paths valid)
    {events : List Event} (allocate : ∀ event ∈ events, event.Allocates)
    (finished : run Sys.step state events = some final) :
    Lists final.valid_paths (events.foldl validAfter valid) := by
  induction events generalizing state valid with
  | nil =>
      cases finished
      exact lists
  | cons event events induction =>
      obtain ⟨next, stepped, rest⟩ := run_cons_eq_some_iff.mp finished
      have taken := (step_iff_taken sound.inRange).mp stepped
      have nextLists := lists_of_taken lists
        (allocate event (by simp)) taken
      apply induction (sound.step stepped) nextLists _ rest
      intro later inside
      exact allocate later (List.mem_cons_of_mem _ inside)

@[simp] theorem readTable_links_next (state : Sys) (pid : Nat) :
    (state.readTable pid).links.next = state.table.links.next := by
  unfold readTable
  split <;> simp [Table.loadText, Table.readText, Table.touchLink]

@[simp] theorem finishedTable_links_next (state : Sys) (fork : PendingFork)
    (current : Task) :
    (state.finishedTable fork current).links.next =
      state.table.links.next := by
  unfold finishedTable
  split
  · split <;> simp
  · simp

/-- A link that an event creates carries the text of an accepted write. -/
theorem created_text {state next : Sys} {event : Event}
    (taken : Taken state event next) {link : LinkId}
    (fresh : ¬ link < state.table.links.next)
    (known : link < next.table.links.next) :
    ∃ pid buf count outcome,
      event = .setchos pid buf count outcome ∧
      accepts state.valid_paths (copied buf count) = true ∧
      link = state.table.links.next ∧
      next.table.links.next = link + 1 ∧
      next.table.textOf link = copied buf count := by
  cases taken with
  | @setchos pid current buf count outcome running =>
      refine ⟨pid, buf, count, outcome, rfl, ?_⟩
      simp only [Kernel.setchosTable] at known ⊢
      split at known
      · split at known
        · rename_i textAlloc accepted
          cases linkAlloc : outcome.linkAlloc with
          | false =>
              rw [linkAlloc, installed_links_next_of_failed] at known
              exact absurd known fresh
          | true =>
              rw [linkAlloc, installed_links_next] at known
              have same : link = state.table.links.next :=
                Nat.le_antisymm (Nat.le_of_lt_succ known)
                  (Nat.le_of_not_lt fresh)
              rw [if_pos textAlloc]
              refine ⟨accepted, same, ?_, ?_⟩
              · rw [if_pos accepted, installed_links_next, same]
                rfl
              · rw [if_pos accepted, same]
                exact (installed_textOf _ _ _ _).trans
                  (Heap.alloc_block_self _ _)
        · exact absurd known fresh
      · exact absurd known fresh
  | resetchos => exact absurd (by simpa using known) fresh
  | readlink => exact absurd (by simpa using known) fresh
  | cleanup => exact absurd (by simpa using known) fresh
  | begin => exact absurd (by simpa using known) fresh
  | finish => exact absurd (by simpa using known) fresh
  | _ => exact absurd known fresh

/-- Where a link comes from: the write that created it, and what the list of
valid paths was at that moment. -/
structure CreatedBy (start : Sys) (events : List Event) (link : LinkId)
    (text : Text) (before after : List Event) (state next : Sys) (pid : Nat)
    (buf : List UInt8) (count : Nat) (outcome : SetchosOutcome) : Prop where
  order : events = before ++ .setchos pid buf count outcome :: after
  reached : run Sys.step start before = some state
  wrote : state.step (.setchos pid buf count outcome) = some next
  unknown : state.table.links.next = link
  known : next.table.links.next = link + 1
  text : text = trim buf count
  permitted : trim buf count = rootText ∨
    trim buf count ∈ validTexts before

theorem createdBy_of_run {start final : Sys} (sound : start.Sound)
    (initially : Lists start.valid_paths []) {events : List Event}
    (allocate : ∀ event ∈ events, event.Allocates)
    (finished : run Sys.step start events = some final) {link : LinkId}
    (created : ¬ link < start.table.links.next)
    (known : link < final.table.links.next) :
    ∃ before after state next pid buf count outcome,
      CreatedBy start events link (final.table.textOf link) before after
        state next pid buf count outcome := by
  induction events using List.reverseRecOn generalizing final with
  | nil =>
      cases finished
      exact absurd known created
  | append_singleton events event induction =>
      obtain ⟨state, reached, last⟩ := run_append_eq_some_iff.mp finished
      have stepped := run_singleton.mp last
      have stateSound := sound.run reached
      have taken := (step_iff_taken stateSound.inRange).mp stepped
      have earlier : ∀ event ∈ events, event.Allocates := by
        intro event inside
        exact allocate event (List.mem_append_left _ inside)
      by_cases old : link < state.table.links.next
      · obtain ⟨before, after, writer, next, pid, buf, count, outcome,
          provenance⟩ := induction earlier reached old
        have sameText := (stateSound.evolves taken).textOf link old
        refine ⟨before, after ++ [event], writer, next, pid, buf, count,
          outcome, ?_⟩
        exact
          { provenance with
            order := by simp [provenance.order]
            text := sameText.trans provenance.text }
      · obtain ⟨pid, buf, count, outcome, rfl, accepted, fresh, grown,
          text⟩ := created_text taken old known
        have lists := lists_of_run sound initially earlier reached
        refine ⟨events, [], state, final, pid, buf, count, outcome, ?_⟩
        exact
          { order := rfl
            reached := reached
            wrote := stepped
            unknown := fresh.symm
            known := grown
            text := text.trans (copied_eq_trim buf count)
            permitted := (lists.accepts buf count).mp accepted }

theorem setchos_refused {state : Sys} (sound : state.Sound) {pid : Nat}
    {current : Task} (running : state.current pid = some current)
    {buf : List UInt8} {count : Nat} {outcome : SetchosOutcome}
    (textAlloc : outcome.textAlloc = true)
    (refused : accepts state.valid_paths (copied buf count) = false) :
    ∃ next, state.setchos pid buf count outcome =
        some (.error .ENOENT, next) ∧
      next.table.procs = state.table.procs ∧
      (∀ link, next.table.count link = state.table.count link) ∧
      next.tree.tasks = state.tree.tasks := by
  have wrote := setchos_eq sound.inRange running buf count outcome
  have result : setchosResult state.valid_paths buf count outcome =
      .error .ENOENT := by
    simp [setchosResult, textAlloc, refused]
  have table : setchosTable state.tree state.valid_paths current buf count
      outcome state.table = (state.table.allocText (copied buf count)).2 := by
    simp [setchosTable, textAlloc, refused]
  have root : setchosRoot state.valid_paths current buf count outcome =
      current.root := by
    simp [setchosRoot, refused]
  rw [result, table, root] at wrote
  refine ⟨_, wrote, rfl, fun _ => rfl, ?_⟩
  exact ProcTree.setRoot_same (current_find running)

/-- The list of valid paths is what root wrote, it decides every
`write_setchos`, and every link in the table was let through by it. -/
theorem valid_controls_setchos {pid_max : Nat} {tree : ProcTree}
    (below : ∀ task ∈ tree.tasks, task.pid < pid_max) {events : List Event}
    (allocate : ∀ event ∈ events, event.Allocates) {final : Sys}
    (finished : run Sys.step (Sys.init pid_max tree) events = some final) :
    (printValid final.valid_paths =
      (validTexts events).flatMap fun path => path ++ ['\n'.toUInt8]) ∧
    (∀ euid buf count outcome, euid ≠ 0 →
      writeValid euid buf count outcome final.valid_paths =
        (.error .EPERM, final.valid_paths)) ∧
    (∀ pid current buf count outcome,
      final.current pid = some current →
      (Event.setchos pid buf count outcome).Allocates →
      ∃ result next,
        final.setchos pid buf count outcome = some (result, next) ∧
        (result = .ok count ↔ trim buf count = rootText ∨
          trim buf count ∈ validTexts events) ∧
        (result ≠ .ok count →
          result = .error .ENOENT ∧
          next.table.procs = final.table.procs ∧
          (∀ link, next.table.count link = final.table.count link) ∧
          next.tree.tasks = final.tree.tasks)) ∧
    (∀ index < pid_max, ∀ link, final.table.linkAt index = some link →
      ∃ before after state next pid buf count outcome,
        CreatedBy (Sys.init pid_max tree) events link
          (final.table.textOf link) before after state next pid buf count
          outcome) := by
  have sound := init_sound below
  have initially : Lists (Sys.init pid_max tree).valid_paths [] :=
    { texts := rfl
      plain := by simp }
  have lists := lists_of_run sound initially allocate finished
  have finalSound := sound.run finished
  refine ⟨lists.printValid, ?_, ?_, ?_⟩
  · intro euid buf count outcome user
    exact if_pos user
  · intro pid current buf count outcome running allocates
    have decided := lists.accepts buf count
    cases accepted :
        accepts final.valid_paths (copied buf count) with
    | true =>
        refine ⟨_, _, setchos_eq finalSound.inRange running buf count outcome,
          ?_⟩
        have result : setchosResult final.valid_paths buf count outcome =
            .ok count := by
          simp [setchosResult, allocates.1, accepted]
        rw [result]
        exact ⟨⟨fun _ => decided.mp accepted, fun _ => rfl⟩,
          fun failed => absurd rfl failed⟩
    | false =>
        obtain ⟨next, wrote, unchanged⟩ :=
          setchos_refused finalSound running allocates.1 accepted
        refine ⟨_, next, wrote, ⟨?_, ?_⟩, fun _ => ⟨rfl, unchanged⟩⟩
        · intro impossible
          cases impossible
        · intro permitted
          rw [decided.mpr permitted] at accepted
          cases accepted
  · intro index indexBelow link holds
    have samePidMax : final.table.pid_max = pid_max :=
      (sound.run_evolves finished).pid_max
    have known := finalSound.table.entries index
      (by rw [samePidMax]; exact indexBelow) link holds
    exact createdBy_of_run sound initially allocate finished
      (Nat.not_lt_zero link) known

theorem valid_controls_setchos_listed :
    ∃ final, run Sys.step (Sys.init 16 .boot)
        [.writeValid 0 [47, 97, 10] 3 ⟨true, true⟩,
          .writeValid 7 [47, 98] 2 ⟨true, true⟩, .begin 1,
          .create 1 ⟨10, ⟨5, 0⟩, 0, []⟩, .finish 1,
          .setchos 10 [47, 97, 0, 98] 4 ⟨true, true, true, .other 0⟩] =
        some final ∧
      printValid final.valid_paths = [47, 97, 10] ∧
      ∃ before after state next pid buf count outcome,
        CreatedBy (Sys.init 16 .boot)
          [.writeValid 0 [47, 97, 10] 3 ⟨true, true⟩,
            .writeValid 7 [47, 98] 2 ⟨true, true⟩, .begin 1,
            .create 1 ⟨10, ⟨5, 0⟩, 0, []⟩, .finish 1,
            .setchos 10 [47, 97, 0, 98] 4 ⟨true, true, true, .other 0⟩]
          0 (final.table.textOf 0) before after state next pid buf count
          outcome := by
  have held : (run Sys.step (Sys.init 16 .boot)
      [.writeValid 0 [47, 97, 10] 3 ⟨true, true⟩,
        .writeValid 7 [47, 98] 2 ⟨true, true⟩, .begin 1,
        .create 1 ⟨10, ⟨5, 0⟩, 0, []⟩, .finish 1,
        .setchos 10 [47, 97, 0, 98] 4 ⟨true, true, true, .other 0⟩]).map
        (fun final => final.table.linkAt 10) = some (some 0) := by
    decide +kernel
  obtain ⟨final, finished, holds⟩ := Option.map_eq_some_iff.mp held
  obtain ⟨printed, _, _, provenance⟩ := valid_controls_setchos
    (ProcTree.boot_below (by decide)) (by simp [Event.Allocates]) finished
  exact ⟨final, finished, printed.trans (by decide +kernel),
    provenance 10 (by decide) 0 holds⟩

end Sys

end Chos.Kernel
