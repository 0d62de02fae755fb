import Newsdeck.Ecma.JsonRoundTrip
import Newsdeck.Ecma.Schema
import Newsdeck.Library.Interleaving

/-!
# The lock of the runners on one host

A runner reads the lock file, decides, and writes its own; later it reads the file again and removes
it if it is still its own.  Reading and writing are two steps, and nothing ties one to the other.

* `acquireLock`, `release` — the two calls;
* `parseLock_lockText` — a lock that is written is read back;
* `phaseOf` — where a runner is in its session, by what it has done;
* `Exclusive` — at most one runner holds the lock, and the file is its own; kept by every step that
  is `Free`;
* `free_of_undisturbed` — a write is `Free` when nobody else wrote since the runner read the file;
* `lock_exclusive` — as long as every write finds a file that could still be taken, one runner at
  most holds the lock, and only its own lock is removed;
* `lock_taken_twice` — two runners that read first and write then.
-/

namespace Newsdeck.Runner

open Ecma Effects

structure LockFile where
  pid : ℕ
  host : Text
  startedAt : Text
  command : Text
  deriving DecidableEq, Repr

def lockFileSchema : Schema LockFile := Schema.object fun field => do
  let pid ← field "pid" (Schema.nat 1 Schema.maxSafe)
  let host ← field "host" (Schema.text fun _ => true)
  let startedAt ← field "startedAt" (Schema.text fun _ => true)
  let command ← field "command" (Schema.text fun _ => true)
  some ⟨pid, host, startedAt, command⟩

def lockFileJson (lock : LockFile) : Json :=
  .obj [(lit "pid", .num lock.pid), (lit "host", .str lock.host),
    (lit "startedAt", .str lock.startedAt), (lit "command", .str lock.command)]

def lockText [Host] (lock : LockFile) : Text := Json.stringify 2 (lockFileJson lock) ++ lit "\n"

def parseLock (text : Text) : Option LockFile :=
  (Json.parse text).bind fun value => lockFileSchema (some value)

theorem parseLock_lockText [Host] {lock : LockFile}
    (hpid : 1 ≤ lock.pid ∧ lock.pid ≤ Schema.maxSafe) :
    parseLock (lockText lock) = some lock := by
  have hplain : Json.Plain (lockFileJson lock) := by
    refine ⟨⟨lock.pid, rfl, ?_⟩, trivial, trivial, trivial, trivial⟩
    have hsafe : Schema.maxSafe < 2 ^ 53 := by decide
    omega
  have hparse : Json.parse (lockText lock) = some (lockFileJson lock) :=
    Json.parse_stringify_line 2 _ hplain
  have hnat : Schema.nat 1 Schema.maxSafe (some (.num lock.pid)) = some lock.pid :=
    Schema.nat_natCast hpid.1 hpid.2 hpid.2
  have hhost : Schema.text (fun _ => true) (some (.str lock.host)) = some lock.host := rfl
  have hstarted : Schema.text (fun _ => true) (some (.str lock.startedAt)) =
    some lock.startedAt := rfl
  have hcommand : Schema.text (fun _ => true) (some (.str lock.command)) = some lock.command := rfl
  rw [parseLock, hparse]
  simp [lockFileSchema, lockFileJson, hnat, hhost, hstarted, hcommand]

/-! ### The calls -/

inductive LockOp where
  | readFile
  | writeFile (text : Text)
  | rm
  deriving DecidableEq, Repr

/-- The text of the file, if it could be read; whether the file was written or removed. -/
def LockOp.Answer : LockOp → Type
  | readFile => Option Text
  | writeFile _ => Bool
  | rm => Bool

abbrev LockEvent := Event LockOp LockOp.Answer

/-- What is thrown is an error of the file system. -/
abbrev LockAction (α : Type) := Prog LockOp LockOp.Answer Unit α

inductive AcquireOutcome where
  | acquired
  | refused (reason : Text) (holder : LockFile)

def readLock : LockAction (Option LockFile) :=
  .call .readFile fun content => .ret (content.bind parseLock)

section Calls

variable (path : Text) (isRunning : ℕ → Bool)

/-- Why a lock that was found cannot be taken; one of a process of this host that is gone can. -/
def refusal (host : Text) : Option LockFile → Option (Text × LockFile)
  | none => none
  | some existing =>
      if existing.host ≠ host then
        some (lit "The lock is held by " ++ existing.host ++ lit " (pid " ++ decimal existing.pid ++
          lit "). This machine cannot tell whether that runner is still alive; check it, then delete " ++
          path ++ lit ".", existing)
      else if isRunning existing.pid then
        some (lit "Another runner is already going (pid " ++ decimal existing.pid ++
          lit ", started " ++ existing.startedAt ++ lit ").", existing)
      else none

def acquireLock [Host] (lock : LockFile) : LockAction AcquireOutcome := do
  let existing ← readLock
  match refusal path isRunning lock.host existing with
  | some (reason, holder) => .ret (.refused reason holder)
  | none => .call (.writeFile (lockText lock)) fun
      | true => .ret .acquired
      | false => .throw ()

/-- The lock is the runner's own. -/
def LockFile.IsOf (pid : ℕ) (host : Text) (lock : LockFile) : Prop :=
  lock.pid = pid ∧ lock.host = host

instance (pid : ℕ) (host : Text) (lock : LockFile) : Decidable (lock.IsOf pid host) :=
  inferInstanceAs (Decidable (_ ∧ _))

def release (pid : ℕ) (host : Text) : LockAction Unit := do
  match ← readLock with
  | none => .ret ()
  | some current =>
      if current.IsOf pid host then
        .call .rm fun
          | true => .ret ()
          | false => .throw ()
      else .ret ()

/-- A runner that works while it holds the lock. -/
def session [Host] (lock : LockFile) : LockAction Unit := do
  match ← acquireLock path isRunning lock with
  | .acquired => release lock.pid lock.host
  | .refused _ _ => .ret ()

/-- One session after the other, however each of them ends. -/
def sessions [Host] : List LockFile → LockAction Unit
  | [] => .ret ()
  | lock :: later => do
      let _ ← (session path isRunning lock).attempt
      sessions later

end Calls

/-! ### The file -/

/-- A read may fail; a write that fails may leave anything in the file. -/
def lockStep (file : Option Text) (event : LockEvent) (file' : Option Text) : Prop :=
  match event with
  | ⟨.readFile, content⟩ => (∀ text, content = some text → file = some text) ∧ file' = file
  | ⟨.writeFile text, written⟩ => written = true → file' = some text
  | ⟨.rm, removed⟩ => file' = none ∨ (removed = false ∧ file' = file)

/-- The file system when nothing fails. -/
def answerLock (file : Option Text) : (op : LockOp) → Option (LockOp.Answer op × Option Text)
  | .readFile => some (file, file)
  | .writeFile text => some (true, some text)
  | .rm => some (true, none)

theorem lockStep_answer {file file' : Option Text} {op : LockOp} {answer : op.Answer}
    (h : answerLock file op = some (answer, file')) : lockStep file ⟨op, answer⟩ file' := by
  cases op with
  | readFile =>
    cases h
    exact ⟨fun _ heq => heq, rfl⟩
  | writeFile text =>
    cases h
    exact fun _ => rfl
  | rm =>
    cases h
    exact .inl rfl

/-! ### Who holds the lock -/

/-- A process of the host. -/
structure LockRunner where
  pid : ℕ
  one_le_pid : 1 ≤ pid
  pid_le : pid ≤ Schema.maxSafe
  /-- When each of its sessions starts, and the command. -/
  starts : List (Text × Text)

def LockRunner.locks (host : Text) (runner : LockRunner) : List LockFile :=
  runner.starts.map fun (startedAt, command) => ⟨runner.pid, host, startedAt, command⟩

/-- A runner holds the lock from its write on; it is about to remove the lock when it has found it
to be its own. -/
inductive LockPhase where
  | idle
  | holding
  | removing
  deriving DecidableEq

def phaseAfter (pid : ℕ) (host : Text) : LockPhase → LockEvent → LockPhase
  | .idle, ⟨.writeFile _, true⟩ => .holding
  | .holding, ⟨.readFile, content⟩ =>
      match (content : Option Text).bind parseLock with
      | some current => if current.IsOf pid host then .removing else .idle
      | none => .idle
  | .removing, ⟨.rm, _⟩ => .idle
  | phase, _ => phase

def phaseOf (pid : ℕ) (host : Text) (log : List LockEvent) : LockPhase :=
  log.foldl (phaseAfter pid host) .idle

theorem phaseOf_snoc (pid : ℕ) (host : Text) (log : List LockEvent) (event : LockEvent) :
    phaseOf pid host (log ++ [event]) = phaseAfter pid host (phaseOf pid host log) event := by
  simp [phaseOf]

/-- What a runner asks of the file, by what it has done. -/
def LockAsks [Host] (path : Text) (isRunning : ℕ → Bool) (pid : ℕ) (host : Text)
    (locks : List LockFile) (log : List LockEvent) : LockOp → Prop
  | .readFile => True
  | .writeFile text => phaseOf pid host log = .idle ∧ (∃ lock ∈ locks, text = lockText lock) ∧
      ∃ earlier content, log = earlier ++ [⟨.readFile, content⟩] ∧
        refusal path isRunning host ((content : Option Text).bind parseLock) = none
  | .rm => phaseOf pid host log = .removing

section Asks

variable [Host] {path : Text} {isRunning : ℕ → Bool} {pid : ℕ} {host : Text} {locks : List LockFile}

/-- A release by a runner that holds the lock ends with the runner idle. -/
theorem release_asks {log : List LockEvent} {later : LockAction Unit}
    (hholding : phaseOf pid host log = .holding)
    (hlater : ∀ log', phaseOf pid host log' = .idle →
      EmitsAfter (LockAsks path isRunning pid host locks) log' later) :
    EmitsAfter (LockAsks path isRunning pid host locks) log
      ((release pid host).attempt >>= fun _ => later) := by
  refine ⟨trivial, fun content => ?_⟩
  have hphase := phaseOf_snoc pid host log ⟨.readFile, content⟩
  rw [hholding] at hphase
  simp only [phaseAfter] at hphase
  cases hcurrent : (content : Option Text).bind parseLock with
  | none =>
    simp only [hcurrent] at hphase
    simp only [Prog.bind, Prog.attempt, hcurrent]
    exact hlater _ hphase
  | some current =>
    simp only [hcurrent] at hphase
    simp only [Prog.bind, hcurrent]
    by_cases hown : current.IsOf pid host
    · rw [if_pos hown] at hphase ⊢
      refine ⟨hphase, fun removed => ?_⟩
      have hidle : phaseOf pid host (log ++ [⟨.readFile, content⟩] ++ [⟨.rm, removed⟩]) =
          .idle := by
        rw [phaseOf_snoc, hphase]
        rfl
      cases removed with
      | true => exact hlater _ hidle
      | false => exact hlater _ hidle
    · rw [if_neg hown] at hphase ⊢
      exact hlater _ hphase

theorem session_asks {lock : LockFile} {log : List LockEvent} {later : LockAction Unit}
    (hmem : lock ∈ locks) (hown : lock.IsOf pid host) (hidle : phaseOf pid host log = .idle)
    (hlater : ∀ log', phaseOf pid host log' = .idle →
      EmitsAfter (LockAsks path isRunning pid host locks) log' later) :
    EmitsAfter (LockAsks path isRunning pid host locks) log
      ((session path isRunning lock).attempt >>= fun _ => later) := by
  obtain ⟨rfl, rfl⟩ := hown
  refine ⟨trivial, fun content => ?_⟩
  have hread : phaseOf lock.pid lock.host (log ++ [⟨.readFile, content⟩]) = .idle := by
    rw [phaseOf_snoc, hidle]
    rfl
  cases hrefusal : refusal path isRunning lock.host ((content : Option Text).bind parseLock) with
  | some refused =>
    simp only [Prog.bind, Prog.attempt, hrefusal]
    exact hlater _ hread
  | none =>
    simp only [Prog.bind, Prog.attempt, hrefusal]
    refine ⟨⟨hread, ⟨lock, hmem, rfl⟩, log, content, rfl, hrefusal⟩, fun written => ?_⟩
    have hwritten := phaseOf_snoc lock.pid lock.host (log ++ [⟨.readFile, content⟩])
      ⟨.writeFile (lockText lock), written⟩
    rw [hread] at hwritten
    cases written with
    | true => exact release_asks hwritten hlater
    | false => exact hlater _ hwritten

theorem sessions_asks (later : List LockFile) : later ⊆ locks →
    (∀ lock ∈ later, lock.IsOf pid host) → ∀ log, phaseOf pid host log = .idle →
      EmitsAfter (LockAsks path isRunning pid host locks) log (sessions path isRunning later) := by
  induction later with
  | nil => exact fun _ _ _ _ => trivial
  | cons lock later ih =>
    intro hsub hown log hidle
    obtain ⟨hlock, hlater⟩ := List.cons_subset.mp hsub
    exact session_asks hlock (hown lock List.mem_cons_self) hidle fun log' =>
      ih hlater (fun l hl => hown l (List.mem_cons_of_mem _ hl)) log'

end Asks

/-! ### Any number of runners -/

abbrev LockMove (ι : Type) := Move (Option Text) (ι × LockOp) (TaggedAns ι LockOp.Answer)

section Runners

variable {ι : Type} (path : Text) (isRunning : ℕ → Bool) (host : Text)

/-- A runner writes only where a read would still let it take the lock. -/
def Free (move : LockMove ι) : Prop :=
  match move.event.op with
  | (_, .writeFile _) => refusal path isRunning host (move.before.bind parseLock) = none
  | _ => True

instance (move : LockMove ι) : Decidable (Free path isRunning host move) := by
  unfold Free
  split <;> infer_instance

variable [Host] [DecidableEq ι] (runners : ι → LockRunner)

def LockRunner.program (runner : LockRunner) : LockAction Unit :=
  sessions path isRunning (runner.locks host)

def phaseIn (i : ι) (moves : List (LockMove ι)) : LockPhase :=
  phaseOf (runners i).pid host ((moves.map Move.event).filterMap (own i))

/-- Nobody holds the lock; or one runner does, and the file is its own. -/
def Exclusive (moves : List (LockMove ι)) (file : Option Text) : Prop :=
  (∀ i, phaseIn host runners i moves = .idle) ∨
  ∃ i, (∀ j, j ≠ i → phaseIn host runners j moves = .idle) ∧
    ∃ lock ∈ (runners i).locks host, file = some (lockText lock)

variable {path isRunning host runners} {moves before after : List (LockMove ι)} {move : LockMove ι}
  {start file : Option Text}

omit [Host] [DecidableEq ι] in
theorem isOf_of_mem_locks {runner : LockRunner} {lock : LockFile} (h : lock ∈ runner.locks host) :
    lock.IsOf runner.pid host := by
  obtain ⟨started, -, rfl⟩ := List.mem_map.mp h
  exact ⟨rfl, rfl⟩

omit [DecidableEq ι] in
theorem parseLock_of_mem_locks {runner : LockRunner} {lock : LockFile}
    (h : lock ∈ runner.locks host) : parseLock (lockText lock) = some lock := by
  obtain ⟨hpid, -⟩ := isOf_of_mem_locks h
  exact parseLock_lockText ⟨hpid ▸ runner.one_le_pid, hpid ▸ runner.pid_le⟩

omit [Host] in
theorem phaseIn_other {i j : ι} (h : move.event.op.1 = i) (hj : j ≠ i) :
    phaseIn host runners j (before ++ [move]) = phaseIn host runners j before := by
  have hnone : own j move.event = none := if_neg fun hown => hj (hown.symm.trans h)
  simp [phaseIn, hnone]

omit [Host] in
theorem phaseIn_own {i : ι} {s t : Option Text} {op : LockOp} {answer : op.Answer} :
    phaseIn host runners i (before ++ [⟨s, ⟨(i, op), answer⟩, t⟩]) =
      phaseAfter (runners i).pid host (phaseIn host runners i before) ⟨op, answer⟩ := by
  have hsome : own i (⟨(i, op), answer⟩ : Tagged ι LockOp LockOp.Answer) = some ⟨op, answer⟩ :=
    if_pos rfl
  simp [phaseIn, hsome, phaseOf_snoc]

/-- What a runner asks of the file in a run. -/
theorem asks_in {i : ι} {s t : Option Text} {op : LockOp} {answer : op.Answer}
    (hcalls : Interleaved (fun i => (runners i).program path isRunning host) (moves.map Move.event))
    (hmoves : moves = before ++ ⟨s, ⟨(i, op), answer⟩, t⟩ :: after) :
    LockAsks path isRunning (runners i).pid host ((runners i).locks host)
      ((before.map Move.event).filterMap (own i)) op := by
  rw [hmoves, List.map_append, List.map_cons] at hcalls
  exact interleaved_emitsAfter hcalls
    (sessions_asks _ (List.Subset.refl _) (fun _ => isOf_of_mem_locks) [] rfl)

omit [DecidableEq ι] in
/-- A lock of a process that runs refuses everyone. -/
theorem refusal_of_mem_locks {runner : LockRunner} {lock : LockFile}
    (hlock : lock ∈ runner.locks host) (halive : isRunning runner.pid = true) :
    refusal path isRunning host ((some (lockText lock)).bind parseLock) ≠ none := by
  obtain ⟨hpid, hhost⟩ := isOf_of_mem_locks hlock
  have hparse : (some (lockText lock)).bind parseLock = some lock := parseLock_of_mem_locks hlock
  have hrunning : isRunning lock.pid = true := hpid ▸ halive
  rw [hparse]
  simp [refusal, hhost, hrunning]

theorem exclusive_step (halive : ∀ i, isRunning (runners i).pid = true)
    (hcalls : Interleaved (fun i => (runners i).program path isRunning host) (moves.map Move.event))
    (hmoves : moves = before ++ move :: after) (hfree : Free path isRunning host move)
    (hstep : Shared lockStep move.before move.event move.after)
    (hexclusive : Exclusive host runners before move.before) :
    Exclusive host runners (before ++ [move]) move.after := by
  obtain ⟨s, ⟨⟨i, op⟩, answer⟩, t⟩ := move
  have hasks := asks_in hcalls hmoves
  have hothers : ∀ j, j ≠ i → phaseIn host runners j (before ++ [⟨s, ⟨(i, op), answer⟩, t⟩]) =
      phaseIn host runners j before := fun j hj => phaseIn_other rfl hj
  have hself : phaseIn host runners i (before ++ [⟨s, ⟨(i, op), answer⟩, t⟩]) =
      phaseAfter (runners i).pid host (phaseIn host runners i before) ⟨op, answer⟩ := phaseIn_own
  cases op with
  | readFile =>
    have hkept : ∀ j, phaseIn host runners j before = .idle →
        phaseIn host runners j (before ++ [⟨s, ⟨(i, .readFile), answer⟩, t⟩]) = .idle := by
      intro j hj
      by_cases hji : j = i
      · subst hji
        rw [hself, hj]
        rfl
      · rw [hothers j hji, hj]
    have hsame : t = s := hstep.2
    refine hexclusive.imp (fun hidle j => hkept j (hidle j)) ?_
    rintro ⟨k, hk, lock, hlock, hfile⟩
    exact ⟨k, fun j hj => hkept j (hk j hj), lock, hlock, hsame.trans hfile⟩
  | rm =>
    -- The runner that removes the file is the one that holds the lock.
    have hremoving : phaseIn host runners i before = .removing := hasks
    refine .inl fun j => ?_
    by_cases hji : j = i
    · subst hji
      rw [hself, hremoving]
      rfl
    · rw [hothers j hji]
      rcases hexclusive with hidle | ⟨k, hk, -⟩
      · exact hidle j
      · obtain rfl : i = k := by
          by_contra hik
          rw [hk i hik] at hremoving
          cases hremoving
        exact hk j hji
  | writeFile text =>
    obtain ⟨hidle, ⟨lock, hlock, rfl⟩, -⟩ := hasks
    have hall : ∀ j, phaseIn host runners j before = .idle := by
      rcases hexclusive with hall | ⟨k, -, held, hheld, hfile⟩
      · exact hall
      · have hrefusal : refusal path isRunning host (s.bind parseLock) = none := hfree
        rw [show s = some (lockText held) from hfile] at hrefusal
        exact absurd hrefusal (refusal_of_mem_locks hheld (halive k))
    cases answer with
    | true => exact .inr ⟨i, fun j hj => (hothers j hj).trans (hall j), lock, hlock, hstep rfl⟩
    | false =>
      refine .inl fun j => ?_
      by_cases hji : j = i
      · subst hji
        rw [hself, hall j]
        rfl
      · rw [hothers j hji, hall j]

/-- The runner read the file as it was, and has not been disturbed since: nobody has written. -/
def Undisturbed (i : ι) (before : List (LockMove ι)) : Prop :=
  ∃ early file middle, before = early ++ ⟨file, ⟨(i, .readFile), file⟩, file⟩ :: middle ∧
    ∀ move ∈ middle, move.event.op.1 ≠ i ∧ ∀ text, move.event.op.2 ≠ .writeFile text

omit [Host] [DecidableEq ι] in
/-- Where nobody writes, the file stays as it is, or is removed. -/
theorem unwritten_walk {middle : List (LockMove ι)} {s t : Option Text}
    (hwalk : Walk (Shared lockStep) s middle t)
    (hmiddle : ∀ move ∈ middle, ∀ text, move.event.op.2 ≠ .writeFile text) : t = s ∨ t = none := by
  refine walk_keeps (fun file => file = s ∨ file = none) hwalk (.inl rfl) ?_
  rintro before ⟨u, ⟨⟨j, op⟩, answer⟩, v⟩ after hmoves hfile hstep
  cases op with
  | readFile =>
    have hsame : v = u := hstep.2
    exact hsame ▸ hfile
  | writeFile text =>
    have hmem : (⟨u, ⟨(j, .writeFile text), answer⟩, v⟩ : LockMove ι) ∈ middle := by
      rw [hmoves]
      simp
    exact absurd rfl (hmiddle _ hmem text)
  | rm =>
    rcases hstep with hgone | ⟨-, hsame⟩
    · exact .inr hgone
    · have hsame : v = u := hsame
      exact hsame ▸ hfile

/-- A runner that read the file as it was, and was not disturbed since, writes where it may: what
`acquireLock` refuses on is what the file says. -/
theorem free_of_undisturbed {i : ι} {s t : Option Text} {text : Text}
    {answer : LockOp.Answer (.writeFile text)} (hwalk : Walk (Shared lockStep) start moves file)
    (hcalls : Interleaved (fun i => (runners i).program path isRunning host) (moves.map Move.event))
    (hmoves : moves = before ++ ⟨s, ⟨(i, .writeFile text), answer⟩, t⟩ :: after)
    (hundisturbed : Undisturbed i before) :
    Free path isRunning host (⟨s, ⟨(i, .writeFile text), answer⟩, t⟩ : LockMove ι) := by
  obtain ⟨early, content, middle, rfl, hmiddle⟩ := hundisturbed
  obtain ⟨-, -, earlier, read, hlog, hrefusal⟩ := asks_in hcalls hmoves
  have hown : own i (⟨(i, .readFile), content⟩ : Tagged ι LockOp LockOp.Answer) =
      some ⟨.readFile, content⟩ := if_pos rfl
  have hnone : (middle.map Move.event).filterMap (own i) = [] := by
    rw [List.filterMap_eq_nil_iff]
    intro event hevent
    obtain ⟨move, hmove, rfl⟩ := List.mem_map.mp hevent
    exact if_neg (hmiddle move hmove).1
  rw [List.map_append, List.map_cons, List.filterMap_append, List.filterMap_cons_some hown,
    hnone] at hlog
  obtain ⟨-, hlast⟩ := List.append_inj' hlog rfl
  cases hlast
  obtain ⟨hbefore, -⟩ := walk_split hwalk hmoves
  have hfile := unwritten_walk (walk_from hbefore) fun move hmove => (hmiddle move hmove).2
  show refusal path isRunning host (s.bind parseLock) = none
  rcases hfile with hsame | hgone
  · have hsame : s = content := hsame
    rw [hsame]
    exact hrefusal
  · have hgone : s = none := hgone
    rw [hgone]
    rfl

/-- Runners that take turns, nobody writing between the read of another and its write, write where
they may. -/
theorem along_free_of_undisturbed (hwalk : Walk (Shared lockStep) start moves file)
    (hcalls : Interleaved (fun i => (runners i).program path isRunning host) (moves.map Move.event))
    (hundisturbed : Along (fun before move => ∀ text, move.event.op.2 = .writeFile text →
      Undisturbed move.event.op.1 before) moves) :
    Along (fun _ => Free path isRunning host) moves := by
  rintro before ⟨s, ⟨⟨i, op⟩, answer⟩, t⟩ after hmoves
  cases op with
  | readFile => trivial
  | writeFile text =>
    exact free_of_undisturbed hwalk hcalls hmoves (hundisturbed _ _ after hmoves text rfl)
  | rm => trivial

theorem exclusive_walk (halive : ∀ i, isRunning (runners i).pid = true)
    (hwalk : Walk (Shared lockStep) start moves file)
    (hcalls : Interleaved (fun i => (runners i).program path isRunning host) (moves.map Move.event))
    (hfree : Along (fun _ => Free path isRunning host) moves) : Exclusive host runners moves file :=
  walk_past (Exclusive host runners) hwalk (.inl fun _ => rfl)
    fun before move after hmoves hbefore hstep =>
    exclusive_step halive hcalls hmoves (hfree before move after hmoves) hstep hbefore

/-- **One runner at a time.**  However the runners' reads, writes and removals interleave, as long
as no runner writes over a lock it would not be given, one of them at most holds the lock, at any
time, and what is removed is the lock of the runner that removes it. -/
theorem lock_exclusive (halive : ∀ i, isRunning (runners i).pid = true)
    (hwalk : Walk (Shared lockStep) start moves file)
    (hcalls : Interleaved (fun i => (runners i).program path isRunning host) (moves.map Move.event))
    (hfree : Along (fun _ => Free path isRunning host) moves) :
    ∀ before after, moves = before ++ after →
      (∀ i j, phaseIn host runners i before ≠ .idle → phaseIn host runners j before ≠ .idle →
        i = j) ∧
      ∀ move rest i, after = move :: rest → move.event.op = (i, .rm) →
        phaseIn host runners i before ≠ .idle ∧
        ∃ lock ∈ (runners i).locks host, move.before = some (lockText lock) := by
  intro before after hmoves
  obtain ⟨file', hbefore, -⟩ := walk_rest hwalk hmoves
  have hevents := hcalls
  rw [hmoves, List.map_append] at hevents
  have hexclusive := exclusive_walk halive hbefore hevents.initial (hmoves ▸ hfree).initial
  constructor
  · intro i j hi hj
    rcases hexclusive with hidle | ⟨k, hk, -⟩
    · exact absurd (hidle i) hi
    · have hik : i = k := by_contra fun h => hi (hk i h)
      have hjk : j = k := by_contra fun h => hj (hk j h)
      exact hik.trans hjk.symm
  · rintro ⟨s, ⟨op, answer⟩, t⟩ rest i rfl hop
    obtain rfl : op = (i, .rm) := hop
    have hremoving : phaseIn host runners i before = .removing := asks_in hcalls hmoves
    obtain ⟨hwalked, -⟩ := walk_split hwalk hmoves
    have hnow := exclusive_walk halive hwalked hevents.initial (hmoves ▸ hfree).initial
    refine ⟨by simp [hremoving], ?_⟩
    rcases hnow with hidle | ⟨k, hk, hfile⟩
    · rw [hidle i] at hremoving
      cases hremoving
    · obtain rfl : i = k := by
        by_contra hik
        rw [hk i hik] at hremoving
        cases hremoving
      exact hfile

end Runners

/-- Two processes of one host. -/
def twoRunners (i : Bool) : LockRunner where
  pid := if i then 2 else 1
  one_le_pid := by cases i <;> decide
  pid_le := by cases i <;> decide
  starts := [(lit "t", lit "once")]

/-- The runners, taking turns on a file that nobody has written yet. -/
def lockTurns (turns : List Bool) : List (LockMove Bool) × Option Text :=
  schedule answerLock turns
    (fun i => @LockRunner.program (lit "lock") (fun _ => true) (lit "h") asciiHost
      (twoRunners i)) none

/-- The first runner takes the lock, and keeps it while the second asks for it. -/
def refusedTurns : List (LockMove Bool) × Option Text :=
  lockTurns [false, false, true, true, false, false]

theorem refusedTurns_walk :
    Walk (Shared lockStep) none refusedTurns.1 refusedTurns.2 ∧
      Interleaved (fun i => @LockRunner.program (lit "lock") (fun _ => true) (lit "h") asciiHost
        (twoRunners i)) (refusedTurns.1.map Move.event) :=
  ⟨walk_schedule answerLock _ (fun _ _ _ _ => lockStep_answer) _ none,
    interleaved_schedule answerLock [false, false, true, true, false, false] _ none⟩

/-- The second runner reads the lock, and writes nothing; the first removes its own. -/
theorem lock_exclusive_turns :
    (refusedTurns.1.filter fun move => move.event.op.1).map (fun move => move.event.op.2) =
        [.readFile] ∧
      ∃ move rest, refusedTurns.1.drop 4 = move :: rest ∧
        ∃ lock ∈ (twoRunners false).locks (lit "h"), move.before =
          some (@lockText asciiHost lock) := by
  obtain ⟨hwalk, hcalls⟩ := refusedTurns_walk
  have hfree : Along (fun _ => Free (lit "lock") (fun _ => true) (lit "h")) refusedTurns.1 :=
    along_of_forall (by decide +kernel)
  have hsome : refusedTurns.1.drop 4 ≠ [] := by decide +kernel
  obtain ⟨move, rest, hdrop⟩ := List.exists_cons_of_ne_nil hsome
  have hop : move.event.op = (false, .rm) := by
    have hhead : (refusedTurns.1.drop 4).head?.map (fun m => m.event.op) = some (false, .rm) := by
      decide +kernel
    rw [hdrop] at hhead
    exact Option.some.inj hhead
  have hexclusive :=
    @lock_exclusive _ _ _ _ asciiHost _ twoRunners _ _ _ (fun _ => rfl) hwalk hcalls hfree
    _ _ (List.take_append_drop 4 _).symm
  exact ⟨by decide +kernel, move, rest, hdrop, (hexclusive.2 move rest false hdrop hop).2⟩

/-- Both read before the first of them writes; the second writes when the first has made sure that
the lock is its own. -/
theorem lock_taken_twice : ∃ before move file,
    Walk (Shared lockStep) none (before ++ [move]) file ∧
    Interleaved (fun i => @LockRunner.program (lit "lock") (fun _ => true) (lit "h") asciiHost
      (twoRunners i)) ((before ++ [move]).map Move.event) ∧
    phaseIn (lit "h") twoRunners false before = .removing ∧
    phaseIn (lit "h") twoRunners true before = .holding ∧
    move.event.op = (false, .rm) ∧
    ∃ lock ∈ (twoRunners true).locks (lit "h"), move.before = some (@lockText asciiHost lock) := by
  refine ⟨(lockTurns [false, true, false, false, true, false]).1.dropLast,
    (lockTurns [false, true, false, false, true, false]).1.getLast (by decide +kernel),
    (lockTurns [false, true, false, false, true, false]).2, ?_⟩
  rw [List.dropLast_append_getLast]
  refine ⟨walk_schedule _ _ (fun _ _ _ _ => lockStep_answer) _ _,
    interleaved_schedule _ _ _ _, ?_, ?_, ?_, _, List.mem_singleton_self _, ?_⟩
  · decide +kernel
  · decide +kernel
  · decide +kernel
  · decide +kernel

end Newsdeck.Runner
