import EditorSync.Proofs.LanguageServer.Growth
import Mathlib.Logic.Function.Basic
import Mathlib.Logic.Relation

/-! Calls of the engine that take turns. A call can be interrupted wherever it waits: for a lock,
for its message to be written, or for an answer. -/

namespace EditorSync.LanguageServer

open Procedure
open Function (update)
open Reconcile (Failure Outcome Request)
open Relation (ReflTransGen)
open Rpc (RequestId)

variable {α β σ : Type}

inductive Task where
  | entering (r : Request)
  | started (d : Started)
  | introduced (d : Started) (id : RequestId)
  | acquainted (d : Started)
  | confirmed (d : Started)
  | held (d : Held)
  | addressed (d : Addressed)
  | noted (d : Noted)
  | informed (d : Noted)
  | judged (d : Judged)
  | inquired (d : Judged) (id : Option RequestId)
  | releasing (file : String)
  | removed (d : Document)
  | found (d : Document) (process : Nat)
  | forgotten (d : Document) (process : Nat)

namespace Task

def Needs : Task → Prop
  | entering _ | removed _ => True
  | _ => False

def Goes : Task → Prop
  | entering _ | addressed _ => False
  | _ => True

def Locks : Task → Prop
  | started _ | introduced _ _ | acquainted _ | confirmed _ => True
  | _ => False

end Task

namespace Setup

variable (u : Setup σ)

def step : Task → Action σ (Option Task)
  | .entering r => Option.map (Sum.elim .held .started) <$> u.enter r
  | .started d => (fun id => some (.introduced d id)) <$> u.introduce d
  | .introduced d id => (fun _ => some (.acquainted d)) <$> acquaint d id
  | .acquainted d => (fun _ => some (.confirmed d)) <$> u.confirm d
  | .confirmed d => (fun d => some (.held d)) <$> engage d
  | .held d => (fun d => some (.addressed d)) <$> u.address d
  | .addressed d => (fun d => some (.noted d)) <$> note d
  | .noted d => (fun _ => some (.informed d)) <$> u.inform d
  | .informed d => (fun d => some (.judged d)) <$> judge d
  | .judged d => (fun id => some (.inquired d id)) <$> u.inquire d
  | .inquired d id => (fun _ => none) <$> u.conclude d id
  | .releasing file => Option.map .removed <$> remove file
  | .removed d => (fun s => (s.active? d.language).map (.found d)) <$> get
  | .found d p => (fun _ => some (.forgotten d p)) <$> forget p d.uri
  | .forgotten d p => (fun _ => none) <$> u.farewell p d.uri

end Setup

structure Pool (σ : Type) where
  state : State σ
  tasks : String → Option Task

namespace Pool

def start (pool : Pool σ) (file : String) (task : Task) : Pool σ :=
  ⟨pool.state.between, update pool.tasks file (some task)⟩

def carryOn (pool : Pool σ) (file : String) :
    Except Failure (Option Task) × State σ → Pool σ
  | (.ok (some task), s) => ⟨s, update pool.tasks file (some task)⟩
  | (_, s) => ⟨s.bury, update pool.tasks file none⟩

def Open (pool : Pool σ) (file : String) : Prop :=
  ∀ other task, other ≠ file → pool.tasks other = some task → ¬task.Locks

end Pool

inductive Move where
  | reconcile (r : Request)
  | release (file : String)
  | advance (file : String)
  | react (process : Nat) (reaction : Reaction)

/-- What may happen to the engine: a call for a file that has none, a step of a call, and a server
that writes something or ends of its own accord. -/
inductive Moves (u : Setup σ) (pool : Pool σ) : Move → Pool σ → Prop
  | reconcile (r : Request) (hidle : pool.tasks r.file = none) :
    Moves u pool (.reconcile r) (pool.start r.file (.entering r))
  | release (file : String) (hidle : pool.tasks file = none) :
    Moves u pool (.release file) (pool.start file (.releasing file))
  | advance (file : String) (task : Task) (htask : pool.tasks file = some task)
      (hopen : task.Needs → pool.Open file) :
    Moves u pool (.advance file) (pool.carryOn file ((u.step task).run pool.state))
  | react (process : Nat) (reaction : Reaction) :
    Moves u pool (.react process reaction) { pool with state := u.hear process reaction pool.state }

def MovesIf (u : Setup σ) (allowed : Pool σ → Move → Prop) (pool pool' : Pool σ) : Prop :=
  ∃ move, allowed pool move ∧ Moves u pool move pool'

def Pool.Lone (pool : Pool σ) (file : String) : Prop :=
  ∀ other, other ≠ file → pool.tasks other = none

def Finishes (u : Setup σ) (allowed : Pool σ → Move → Prop) (condition : State σ → Prop)
    (task : Task) (rest : Action σ α) : Prop :=
  ∀ (pool : Pool σ) (file : String), pool.Lone file → pool.tasks file = some task →
    condition pool.state →
      ReflTransGen (MovesIf u allowed) pool
        ⟨(rest.run pool.state).2.bury, update pool.tasks file none⟩

def Permits (allowed : Pool σ → Move → Prop) (condition : State σ → Prop) (task : Task) : Prop :=
  ∀ (pool : Pool σ) (file : String), pool.Lone file → pool.tasks file = some task →
    condition pool.state → allowed pool (.advance file)

structure PermitsAll (allowed : Pool σ → Move → Prop) : Prop where
  addressed : ∀ d : Addressed,
    Permits allowed (fun s => s.serving.get? d.language = some d.process) (.addressed d)
  goes : ∀ task : Task, task.Goes → Permits allowed (fun _ => True) task

section Finishes

open Setup

variable {u : Setup σ} {allowed : Pool σ → Move → Prop} {task : Task}

theorem serving_of_address {d : Held} {b : Addressed} {s s' : State σ}
    (h : s.serving.get? d.language = some d.process) (hrun : (u.address d).run s = (.ok b, s')) :
    s'.serving.get? b.language = some b.process := by
  rw [address, run_bind, run_ofExcept] at hrun
  cases huri : u.uriOrFail d.request.real with
  | error e =>
    rw [huri] at hrun
    cases hrun
  | ok uri =>
    rw [huri] at hrun
    cases hrun
    exact h

theorem serving_of_enter {r : Request} {found : Option (Held ⊕ Started)} {s s' : State σ}
    (hrun : (u.enter r).run s = (.ok found, s')) (d : Held) (hd : found = some (.inl d)) :
    s'.serving.get? d.language = some d.process := by
  unfold enter at hrun
  cases hserver : u.server? r with
  | none =>
    rw [hserver] at hrun
    cases hrun
    cases hd
  | some server =>
    obtain ⟨l, program, options⟩ := server
    simp only [hserver] at hrun
    rw [run_get_bind] at hrun
    cases hactive : s.active? l with
    | some p =>
      simp only [hactive] at hrun
      cases hrun
      cases hd
      exact (Option.filter_eq_some_iff.1 hactive).1
    | none =>
      simp only [hactive] at hrun
      rw [run_bind] at hrun
      rcases hstart : (u.start l program).run s with ⟨result, s''⟩
      rw [hstart] at hrun
      cases result with
      | error e => cases hrun
      | ok p =>
        cases hrun
        cases hd

theorem serving_of_engage {d : Started} {b : Held} {s s' : State σ}
    (hrun : (engage d).run s = (.ok b, s')) : s'.serving.get? b.language = some b.process := by
  cases hrun
  exact (Table.get?_insert ..).trans (if_pos rfl)

theorem Pool.Lone.update {pool : Pool σ} {file : String} (h : pool.Lone file) (s : State σ)
    (task : Option Task) : Pool.Lone ⟨s, update pool.tasks file task⟩ file := by
  intro other hother
  exact (Function.update_of_ne hother ..).trans (h other hother)

theorem Pool.Lone.open {pool : Pool σ} {file : String} (h : pool.Lone file) : pool.Open file := by
  intro other task hother htask
  rw [h other hother] at htask
  cases htask

section Bind

variable {x : Action σ β} {rest : β → Action σ α} {condition : State σ → Prop}

theorem finishes_bind {next : β → Option Task} {after : β → State σ → Prop}
    (hpermits : Permits allowed condition task) (hstep : u.step task = next <$> x)
    (hafter : ∀ s b s', condition s → x.run s = (.ok b, s') → after b s')
    (hnone : ∀ b, next b = none → ∀ s, ((rest b).run s).2 = s)
    (hsome : ∀ b task', next b = some task' → Finishes u allowed (after b) task' (rest b)) :
    Finishes u allowed condition task (x >>= rest) := by
  intro pool file hlone htask hcondition
  have hmove := Moves.advance (u := u) file task htask fun _ => hlone.open
  refine .head ⟨_, hpermits pool file hlone htask hcondition, hmove⟩ ?_
  rw [hstep, run_bind, run_map]
  rcases hx : x.run pool.state with ⟨result, s⟩
  cases result with
  | error e => exact .refl
  | ok b =>
    dsimp only
    cases hnext : next b with
    | none =>
      rw [hnone b hnext s]
      exact .refl
    | some task' =>
      have hrest := hsome b task' hnext _ file (hlone.update s (some task'))
        (Function.update_self ..) (hafter _ b s hcondition hx)
      rw [Function.update_idem] at hrest
      exact hrest

theorem finishes_then {next : β → Task} {after : β → State σ → Prop}
    (hpermits : Permits allowed condition task)
    (hstep : u.step task = (fun b => some (next b)) <$> x)
    (hafter : ∀ s b s', condition s → x.run s = (.ok b, s') → after b s')
    (hnext : ∀ b, Finishes u allowed (after b) (next b) (rest b)) :
    Finishes u allowed condition task (x >>= rest) := by
  refine finishes_bind hpermits hstep hafter (fun b h => ?_) fun b task' h => ?_
  · cases h
  · cases h
    exact hnext b

theorem finishes_go {next : β → Task} (h : PermitsAll allowed) (hgoes : task.Goes)
    (hstep : u.step task = (fun b => some (next b)) <$> x)
    (hnext : ∀ b, Finishes u allowed (fun _ => True) (next b) (rest b)) :
    Finishes u allowed condition task (x >>= rest) := by
  refine finishes_then ?_ hstep (fun _ _ _ _ _ => trivial) hnext
  exact fun pool file hlone htask _ => h.goes task hgoes pool file hlone htask trivial

theorem finishes_last {x : Action σ α} (h : PermitsAll allowed) (hgoes : task.Goes)
    (hstep : u.step task = (fun _ => none) <$> x) : Finishes u allowed condition task x := by
  rw [← bind_pure x]
  refine finishes_bind ?_ hstep (fun _ _ _ _ _ => trivial) (fun _ _ _ => rfl) fun b task' h' => ?_
  · exact fun pool file hlone htask _ => h.goes task hgoes pool file hlone htask trivial
  · cases h'

end Bind

theorem finishes_held (h : PermitsAll allowed) (d : Held) :
    Finishes u allowed (fun s => s.serving.get? d.language = some d.process) (.held d) (do
      let noted ← note (← u.address d)
      u.inform noted
      let judged ← judge noted
      u.conclude judged (← u.inquire judged)) := by
  refine finishes_then ?_ rfl (fun s b s' h hrun => serving_of_address h hrun) fun addressed => ?_
  · exact fun pool file hlone htask _ => h.goes (.held d) trivial pool file hlone htask trivial
  refine finishes_then (h.addressed addressed) rfl (fun _ _ _ _ _ => trivial) fun noted => ?_
  refine finishes_go h trivial rfl fun _ => ?_
  refine finishes_go h trivial rfl fun judged => ?_
  refine finishes_go h trivial rfl fun id => ?_
  exact finishes_last h trivial rfl

theorem finishes_entering (h : PermitsAll allowed) {r : Request} {condition : State σ → Prop}
    (hpermits : Permits allowed condition (.entering r)) :
    Finishes u allowed condition (.entering r) (u.pass r) := by
  unfold Setup.pass acquire
  rw [bind_assoc]
  refine finishes_bind hpermits rfl (fun s b s' _ hrun => serving_of_enter hrun) ?_ ?_
  · intro found hnone s
    cases found with
    | none => rfl
    | some found => cases hnone
  · intro found task hnext
    rcases found with _ | held | d
    · cases hnext
    · cases hnext
      intro pool file hlone htask hserving
      exact finishes_held h held pool file hlone htask (hserving held rfl)
    · cases hnext
      simp only [bind_assoc, pure_bind]
      refine finishes_go h trivial rfl fun id => ?_
      refine finishes_go h trivial rfl fun _ => ?_
      refine finishes_go h trivial rfl fun _ => ?_
      refine finishes_then (h.goes (.confirmed d) trivial) rfl
        (fun s b s' _ hrun => serving_of_engage hrun) fun held => ?_
      exact finishes_held h held

theorem finishes_releasing (h : PermitsAll allowed) (file : String) :
    Finishes u allowed (fun _ => True) (.releasing file) (u.close file) := by
  unfold close
  refine finishes_bind (h.goes _ trivial) rfl (fun _ _ _ _ _ => trivial) ?_ ?_
  · intro removed hnone s
    cases removed with
    | none => rfl
    | some d => cases hnone
  · intro removed task hnext
    cases removed with
    | none => cases hnext
    | some d =>
      cases hnext
      refine finishes_bind (h.goes _ trivial) rfl (fun _ _ _ _ _ => trivial) ?_ ?_
      · intro s hnone s'
        rw [Option.map_eq_none_iff] at hnone
        simp only [hnone]
        rfl
      · intro s task hnext
        obtain ⟨p, hactive, rfl⟩ := Option.map_eq_some_iff.1 hnext
        simp only [hactive]
        refine finishes_go h trivial rfl fun _ => ?_
        exact finishes_last h trivial rfl

theorem moves_of_finishes {condition : State σ → Prop} {rest : Action σ α} {file : String}
    {move : Move} {s : State σ} (h : Finishes u allowed condition task rest)
    (hcondition : condition s.between) (hallowed : allowed ⟨s, fun _ => none⟩ move)
    (hmove : Moves u ⟨s, fun _ => none⟩ move (Pool.start ⟨s, fun _ => none⟩ file task)) :
    ReflTransGen (MovesIf u allowed) ⟨s, fun _ => none⟩
      ⟨(rest.run s.between).2.bury, fun _ => none⟩ := by
  have hlone : Pool.Lone ⟨s, fun _ => none⟩ file := fun _ _ => rfl
  have hrest := h (Pool.start ⟨s, fun _ => none⟩ file task) file (hlone.update _ _)
    (Function.update_self ..) hcondition
  have htasks : update (Pool.start ⟨s, fun _ => none⟩ file task).tasks file none =
      fun _ => none := by
    rw [Pool.start, Function.update_idem]
    exact Function.update_eq_self file fun _ => none
  rw [htasks] at hrest
  exact .head ⟨move, hallowed, hmove⟩ hrest

theorem moves_of_reconcile (h : PermitsAll allowed) {r : Request} {s : State σ}
    {condition : State σ → Prop} (hpermits : Permits allowed condition (.entering r))
    (hcondition : condition s.between) (hallowed : allowed ⟨s, fun _ => none⟩ (.reconcile r)) :
    ReflTransGen (MovesIf u allowed) ⟨s, fun _ => none⟩
      ⟨(u.engine.reconcile s r).2, fun _ => none⟩ :=
  moves_of_finishes (finishes_entering h hpermits) hcondition hallowed (.reconcile r rfl)

theorem moves_of_release (h : PermitsAll allowed) {file : String} {s : State σ}
    (hallowed : allowed ⟨s, fun _ => none⟩ (.release file)) :
    ReflTransGen (MovesIf u allowed) ⟨s, fun _ => none⟩
      ⟨u.engine.release s file, fun _ => none⟩ :=
  moves_of_finishes (finishes_releasing h file) trivial hallowed (.release file rfl)

end Finishes
end EditorSync.LanguageServer
