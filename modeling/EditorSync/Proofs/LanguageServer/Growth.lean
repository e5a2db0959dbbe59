import EditorSync.Proofs.Procedure
import EditorSync.Proofs.LanguageServer.Protocol

namespace EditorSync.LanguageServer

open Procedure
open Reconcile (Failure Request)
open Rpc (RequestId)

variable {α σ : Type}

namespace Client

structure Follows (c c' : Client) : Prop where
  language : c'.language = c.language
  alive : c'.isAlive = true → c.isAlive = true

theorem Follows.refl (c : Client) : c.Follows c := ⟨rfl, id⟩

theorem Follows.trans {c c' c'' : Client} (h : c.Follows c') (h' : c'.Follows c'') :
    c.Follows c'' :=
  ⟨h'.language.trans h.language, h.alive ∘ h'.alive⟩

theorem Follows.of_same {c c' : Client} (hlanguage : c'.language = c.language)
    (hstate : c'.state = c.state) : c.Follows c' :=
  ⟨hlanguage, fun h => by rwa [isAlive, hstate] at h⟩

theorem follows_moveTo (c : Client) (next : ServerState) : c.Follows (c.moveTo next).client := by
  unfold moveTo
  cases hnext : c.state.change? next with
  | none => exact .refl c
  | some state =>
    refine ⟨rfl, fun _ => ?_⟩
    unfold ServerState.change? at hnext
    split at hnext
    · cases hnext
    · rename_i hlive
      simp only [isAlive, bne_iff_ne, ne_eq]
      exact fun hdead => hlive (.inl hdead)

theorem follows_notified (c : Client) (n : Rpc.Notification) :
    c.Follows (c.notified n).client := by
  unfold notified
  split
  · split <;> exact .of_same rfl rfl
  · split
    · dsimp only
      split
      · exact .of_same rfl rfl
      · refine Follows.trans ?_ (follows_moveTo _ _)
        exact .of_same rfl rfl
    · exact .refl c
  · exact .refl c

theorem follows_responded (c : Client) (r : Rpc.Response) : c.Follows (c.responded r) := by
  unfold responded
  split <;> exact .of_same rfl rfl

theorem follows_hear (c : Client) (body : String) : c.Follows (c.hear body).client := by
  unfold hear
  split
  · exact .refl c
  · split
    · exact .refl c
    · split
      · exact follows_notified c _
      · exact .refl c
    · split
      · exact follows_responded c _
      · exact .refl c
    · exact .refl c

theorem follows_hearAll (c : Client) (bodies : List String) :
    c.Follows (c.hearAll bodies).client := by
  induction bodies generalizing c with
  | nil => exact .refl c
  | cons body rest ih => exact (follows_hear c body).trans (ih _)

theorem follows_receive (c : Client) (chunk : Text.Bytes) : c.Follows (c.receive chunk).client := by
  unfold receive
  refine Follows.trans ?_ (follows_hearAll _ _)
  exact .of_same rfl rfl

theorem follows_receiveAll (fuel : Nat) (c : Client) (bytes : Text.Bytes) :
    c.Follows (receiveAll fuel c bytes).client := by
  induction fuel generalizing c bytes with
  | zero => exact .refl c
  | succ fuel ih =>
    cases bytes with
    | nil => exact .refl c
    | cons b bytes => exact (follows_receive c _).trans (ih _ _)

theorem follows_observe (c : Client) (r : Reaction) : c.Follows (c.observe r).client := by
  have hall := follows_receiveAll r.output.length c r.output
  unfold observe
  dsimp only
  split
  · exact hall.trans (follows_moveTo _ _)
  · exact hall

end Client

namespace State

def tell (s : State (Recorded σ)) (p : Nat) (message : Json) : State (Recorded σ) :=
  { s with host := { s.host with told := s.host.told ++ [(p, message)] } }

def unserve (s : State σ) (language : String) : State σ :=
  { s with serving := s.serving.erase language }

def serve (s : State σ) (language : String) (p : Nat) : State σ :=
  { s with serving := s.serving.insert language p }

variable {s s' : State (Recorded σ)} {p q : Nat}

theorem client_keep (s : State σ) (p q : Nat) (c : Client) :
    (s.keep p c).client q = if q = p then c else s.client q := by
  unfold client keep
  rw [Table.get?_insert]
  split <;> rfl

structure Grows (s s' : State (Recorded σ)) : Prop where
  documents : ∀ file, s'.documents.get? file = s.documents.get? file
  serving : ∀ language, s'.serving.get? language = s.serving.get? language
  standing : ∀ p uri, standing? s'.host.told p uri = standing? s.host.told p uri
  processes : s.host.processes.length ≤ s'.host.processes.length
  clients : ∀ p < s.host.processes.length, (s.client p).Follows (s'.client p)

instance : IsPreorder (State (Recorded σ)) Grows where
  refl _ := ⟨fun _ => rfl, fun _ => rfl, fun _ _ => rfl, Nat.le_refl _, fun _ _ => .refl _⟩
  trans _ _ _ h h' := ⟨fun file => (h'.documents file).trans (h.documents file),
    fun language => (h'.serving language).trans (h.serving language),
    fun p uri => (h'.standing p uri).trans (h.standing p uri),
    Nat.le_trans h.processes h'.processes,
    fun p hp => (h.clients p hp).trans (h'.clients p (Nat.lt_of_lt_of_le hp h.processes))⟩

structure Born (s : State (Recorded σ)) (language : String) (p : Nat) : Prop where
  lt : p < s.host.processes.length
  language : (s.client p).language = language

theorem Born.grow {language : String} (h : s.Born language p) (hg : s.Grows s') : s'.Born language p :=
  ⟨Nat.lt_of_lt_of_le h.lt hg.processes, (hg.clients p h.lt).language.trans h.language⟩

theorem grows_keep {c : Client} (h : (s.client p).Follows c) : s.Grows (s.keep p c) := by
  refine ⟨fun _ => rfl, fun _ => rfl, fun _ _ => rfl, Nat.le_refl _, fun q _ => ?_⟩
  rw [client_keep]
  split
  · rename_i hq
    exact hq ▸ h
  · exact .refl _

theorem Grows.keep {c : Client} (h : s.Grows s') (hp : s.host.processes.length ≤ p) :
    s.Grows (s'.keep p c) := by
  refine ⟨h.documents, h.serving, h.standing, h.processes, fun q hq => ?_⟩
  rw [client_keep, if_neg (Nat.ne_of_lt (Nat.lt_of_lt_of_le hq hp))]
  exact h.clients q hq

theorem grows_of_same (hdocuments : s'.documents = s.documents) (hserving : s'.serving = s.serving)
    (hclients : s'.clients = s.clients) (htold : s'.host.told = s.host.told)
    (hprocesses : s.host.processes.length ≤ s'.host.processes.length) : s.Grows s' := by
  have hclient : ∀ q, s'.client q = s.client q := fun q => by unfold client; rw [hclients]
  refine ⟨fun _ => by rw [hdocuments], fun _ => by rw [hserving], fun _ _ => by rw [htold],
    hprocesses, fun q _ => ?_⟩
  rw [hclient]
  exact .refl _

theorem grows_announce (s : State (Recorded σ)) (language : String) (states : List ServerState) :
    s.Grows (s.announce language states) :=
  grows_of_same rfl rfl rfl rfl (Nat.le_refl _)

theorem grows_bury (s : State (Recorded σ)) : s.Grows s.bury := by
  have hfold : ∀ (ending : List Client) (s' : State (Recorded σ)),
      s'.Grows (ending.foldl (fun s c => s.announce c.language (c.moveTo .dead).states) s') := by
    intro ending
    induction ending with
    | nil => exact fun s' => refl s'
    | cons c rest ih => exact fun s' => IsTrans.trans _ _ _ (grows_announce s' _ _) (ih _)
  exact IsTrans.trans _ { s with ending := [] } _ (grows_of_same rfl rfl rfl rfl (Nat.le_refl _))
    (hfold s.ending _)

theorem grows_between (s : State (Recorded σ)) : s.Grows s.between :=
  grows_of_same rfl rfl rfl rfl (Nat.le_refl _)

theorem grows_tell {message : Json} (h : documentEvent? message = none) :
    s.Grows (s.tell p message) :=
  ⟨fun _ => rfl, fun _ => rfl, fun _ _ => standing?_quiet h, Nat.le_refl _, fun _ _ => .refl _⟩

end State

namespace Setup

open State (Grows)

def recorded (u : Setup σ) : Setup (Recorded σ) :=
  ⟨u.host.recorded, u.servers, u.root, u.pid, u.wire, u.refusal⟩

variable (u : Setup σ) {s : State (Recorded σ)} {p : Nat}

theorem grows_hear (p : Nat) (reaction : Reaction) (s : State (Recorded σ)) :
    s.Grows (u.recorded.hear p reaction s) := by
  have hanswers : ∀ (answers : List Json) (h : Recorded σ),
      (answers.foldl (fun h j => u.recorded.host.answer h p j) h).told = h.told ∧
        (answers.foldl (fun h j => u.recorded.host.answer h p j) h).processes = h.processes := by
    intro answers
    induction answers with
    | nil => exact fun h => ⟨rfl, rfl⟩
    | cons j rest ih => exact fun h => ih (u.recorded.host.answer h p j)
  have hheard := hanswers ((s.client p).observe reaction).answers s.host
  unfold hear
  dsimp only
  refine IsTrans.trans _ _ _ (IsTrans.trans _ _ _ ?_ (State.grows_keep ?_))
    (State.grows_announce _ _ _)
  · exact State.grows_of_same rfl rfl rfl hheard.1 (Nat.le_of_eq (congrArg List.length hheard.2).symm)
  · exact Client.follows_observe (s.client p) reaction

theorem exchange_dead (message : Json) (h : (s.client p).isAlive = false) :
    (u.recorded.exchange p message).run s = (.error brokenPipe, s) := by
  rw [exchange, run_get_bind]
  simp only [h]
  rfl

theorem exchange_alive (message : Json) (h : (s.client p).isAlive = true) :
    ∃ s', (u.recorded.exchange p message).run s = (.ok (), s') ∧ (s.tell p message).Grows s' := by
  let r := u.recorded.host.tell s.host p message
  refine ⟨u.recorded.hear p r.1 { s with host := r.2 }, ?_, ?_⟩
  · rw [exchange, run_get_bind]
    simp only [h]
    rfl
  · refine IsTrans.trans _ { s with host := r.2 } _ ?_ (u.grows_hear p r.1 _)
    exact State.grows_of_same rfl rfl rfl rfl (Nat.le_refl _)

theorem respects_exchange {message : Json} (h : documentEvent? message = none) :
    Respects Grows (u.recorded.exchange p message) := by
  intro s
  cases halive : (s.client p).isAlive with
  | false =>
    rw [exchange_dead u message halive]
    exact refl s
  | true =>
    obtain ⟨s', hrun, hgrows⟩ := exchange_alive u message halive
    rw [hrun]
    exact IsTrans.trans _ _ _ (State.grows_tell h) hgrows

theorem respects_ask {method : String} {params : Json}
    (h : ∀ id, documentEvent? (⟨Rpc.version, id, method, params⟩ : Rpc.Request).toJson = none) :
    Respects Grows (u.recorded.ask p method params) := by
  refine respects_get_bind fun s => ?_
  rw [run_modify_bind]
  refine IsTrans.trans _ _ _ ?_ (((u.respects_exchange (h _)).bind fun _ => respects_pure _) _)
  exact State.grows_keep (.of_same rfl rfl)

theorem respects_answered (p : Nat) (method : String) (id : RequestId) :
    Respects Grows (answered p method id : Action (Recorded σ) Json) := by
  refine respects_get_bind fun s => ?_
  rw [run_modify_bind]
  rw [run_ofExcept]
  exact State.grows_keep (.of_same rfl rfl)

theorem respects_giveUp (p : Nat) :
    Respects Grows (giveUp p : Action (Recorded σ) Unit) := by
  refine respects_modify fun s => ?_
  dsimp only
  split
  · exact State.grows_of_same rfl rfl rfl rfl (Nat.le_refl _)
  · exact refl s

theorem respects_orGiveUp {x : Action (Recorded σ) α} (h : Respects Grows x) :
    Respects Grows (orGiveUp p x) :=
  h.tryCatch fun e => (respects_giveUp p).bind fun _ => respects_throw e

theorem respects_introduce (d : Started) : Respects Grows (u.recorded.introduce d) := by
  refine respects_orGiveUp (Respects.bind (fun s => ?_) fun uri => ?_)
  · rw [run_ofExcept]
    exact refl s
  · exact u.respects_ask fun _ => rfl

theorem respects_acquaint (d : Started) (id : RequestId) :
    Respects Grows (acquaint d id : Action (Recorded σ) Unit) := by
  refine respects_orGiveUp ((respects_answered _ _ id).bind fun result => ?_)
  split
  · exact respects_modify fun s => State.grows_keep (.of_same rfl rfl)
  · exact respects_throw _

theorem respects_confirm (d : Started) : Respects Grows (u.recorded.confirm d) :=
  respects_orGiveUp (u.respects_exchange rfl)

theorem respects_judge (d : Noted) : Respects Grows (judge d : Action (Recorded σ) Judged) := by
  refine respects_get_bind fun s => ?_
  dsimp only
  split
  · exact refl s
  · split <;> exact refl s

theorem respects_inquire (d : Judged) : Respects Grows (u.recorded.inquire d) := by
  refine respects_get_bind fun s => ?_
  split
  · exact refl s
  · refine Respects.tryCatch ((u.respects_ask fun _ => rfl).bind fun id => respects_pure _) ?_ s
    exact fun _ => respects_pure _

theorem respects_tokens (d : Judged) (asked : Option RequestId) :
    Respects Grows (tokens d asked : Action (Recorded σ) (List SemanticToken)) := by
  cases asked with
  | none => exact respects_pure _
  | some id =>
    refine Respects.tryCatch ((respects_answered _ _ id).bind fun j => respects_pure _) ?_
    exact fun _ => respects_pure _

theorem respects_conclude (d : Judged) (asked : Option RequestId) :
    Respects Grows (u.recorded.conclude d asked) :=
  respects_get_bind fun _ => ((respects_tokens d asked).bind fun _ => respects_pure _) _

theorem respects_forget (p : Nat) (uri : String) :
    Respects Grows (forget p uri : Action (Recorded σ) Unit) :=
  respects_modify fun _ => State.grows_keep (.of_same rfl rfl)

end Setup
end EditorSync.LanguageServer
