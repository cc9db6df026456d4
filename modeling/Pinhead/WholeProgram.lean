import Pinhead.FrontendStack
import Pinhead.FuseFilesystem
import Pinhead.SftpSessions
import Pinhead.SideBySide

/-!
# The whole program

The script may ask for several frontends, and the program starts them all over one router and
one pool of workers. A 9P listener has connections and a table of fids that they share. A mount
has one session with the kernel, and so has every SFTP subsystem that a client opens, with its
own handles. Only SFTP does not wait for a reply for ever.
-/
namespace Pinhead.WholeProgram
open FsRequests Resumption Histories SideBySide RouteResolution WorkerPool HandlerSerialization
  ServedRequests AtomicCalls FrontendStack
open FuseFilesystem (Callback FuseState fuse)
open SftpSessions (HandleState Packet sftp)

/-! ## Frontends of any kind -/

section
variable {F : Type} {T : F → Signature} {Q A : Type}

def askingOf (ask : ∀ f, Asking (T f) Q A) : Asking (together T) Q A where
  request o := (ask o.1).request o.2
  answer o := (ask o.1).answer o.2
  gaveUp o := (ask o.1).gaveUp o.2
  waited o := (ask o.1).waited o.2

variable [DecidableEq F] {τ : F → Type}

theorem answering_beside {ask : ∀ f, Asking (T f) Q A} {front : ∀ f, Semantics (T f) (τ f)}
    {P : Q → A → Prop} (o : (together T).Op) (s : ∀ f, τ f) (r : (together T).Ret o)
    (u : ∀ f, τ f) (h : answering (askingOf ask) (beside front) P o s r u) :
    beside (fun f => answering (ask f) (front f) P) o s r u := by
  rcases h with ⟨ho, v, hfront, rfl⟩ | ⟨q, hq, a, ha, rfl, rfl⟩ | ⟨ho, hr, rfl⟩
  · exact ⟨v, .inl ⟨ho, hfront⟩, rfl⟩
  · exact ⟨u o.1, .inr (.inl ⟨q, hq, a, ha, rfl, rfl⟩), (Function.update_eq_self o.1 u).symm⟩
  · exact ⟨u o.1, .inr (.inr ⟨ho, hr, rfl⟩), (Function.update_eq_self o.1 u).symm⟩

/-- Frontends that run together behave as each would alone. -/
theorem frontends_apart {ι : F → Type} [∀ f, DecidableEq (ι f)] {S : Signature} {V σ : Type}
    {ask : ∀ f, Asking (T f) Request (Except String Response)}
    {front : ∀ f, Semantics (T f) (τ f)} {trie : Trie} {table : PatternMap} {cfg : WorkerConfig}
    {code : LuaCode S V} {sem : Semantics S σ} {c : ∀ f, Config (T f) (ι f) (τ f)} {world : σ}
    {s : Stack (together T) (Σ f, ι f) (∀ f, τ f) S V σ}
    (h : StackReachable (askingOf ask) (beside front) trie table cfg code sem (allOf c) world s) :
    ∃ parts ds, Shuffle parts s.trace ∧ s.config = allOf ds ∧
      ∀ f, Run (answering (ask f) (front f) fun req a => ∃ w w',
        Answers trie table code sem req a w w') (c f) (parts f) (ds f) :=
  run_apart ((run_answering h).mono answering_beside)

end

/-! ## Listeners, mounts and SFTP sessions -/

def fuseAsking : Asking fuse Request (Except String Response) where
  request
    | .route req => some req
    | _ => none
  answer
    | .route _, _, _, a => .reply a
  gaveUp _ _ := false
  waited _ _ _ _ := rfl

/-- No answer is a timeout. -/
def sftpAsking : Asking sftp Request (Except String Response) where
  request req := some req
  answer _ _ _ a := some (.reply a)
  gaveUp _ := Option.isNone
  waited _ _ _ _ := rfl

/-- A frontend with one task. What the task keeps goes through its program. -/
def single {T : Signature} {A : Type} (p : Prog T A) : Config T Unit Unit :=
  ⟨(), fun _ => p >>= fun _ => .done ()⟩

theorem single_passes {T : Signature} {A : Type} {p : Prog T A} {h : List (Answered T)}
    {q : Prog T Unit} (hp : Passes ((single p).tasks ()) h q) : ∃ p', Passes p h p' := by
  rcases passes_bind hp with ⟨p', hp', _⟩ | ⟨a, h₁, h₂, rfl, hp', hdone⟩
  · exact ⟨p', hp'⟩
  · obtain ⟨rfl, _⟩ := passes_done hdone
    rw [List.append_nil]
    exact ⟨_, hp'⟩

/-- Every request was given up or has an answer that `P` allows. -/
def Told {T : Signature} {Q A : Type} (ask : Asking T Q A) (P : Q → A → Prop) (o : T.Op)
    (r : T.Ret o) : Prop :=
  ∀ q (h : ask.request o = some q), ask.gaveUp o r = true ∨ ∃ a, P q a ∧ r = ask.answer o q h a

theorem told_of_answering {T : Signature} {Q A τ : Type} {ask : Asking T Q A}
    {front : Semantics T τ} {P : Q → A → Prop} (o : T.Op) (s : τ) (r : T.Ret o) (u : τ)
    (h : answering ask front P o s r u) : Told ask P o r := by
  intro q hq
  rcases h with ⟨ho, _⟩ | ⟨q', hq', a, ha, hr, _⟩ | ⟨_, hr, _⟩
  · rw [hq] at ho
    cases ho
  · obtain rfl := Option.some.inj (hq.symm.trans hq')
    exact .inr ⟨a, ha, hr⟩
  · exact .inl hr

/-- The history of a frontend with one task. -/
theorem single_history {T : Signature} {A : Type} {ask : Asking T Request (Except String Response)}
    {front : Semantics T Unit} {P : Request → Except String Response → Prop} {p : Prog T A}
    {t : List (Event T Unit)} {d : Config T Unit Unit}
    (hrun : Run (answering ask front P) (single p) t d) :
    (∃ p', Passes p (own () t) p') ∧ ∀ e ∈ own () t, Told ask P e.op e.answer :=
  ⟨single_passes (run_passes hrun ()), forall_own (hrun.answers told_of_answering) ()⟩

inductive Part (L M K : Type) where
  | listener (l : L)
  | mount (m : M)
  | sftp (k : K)
  deriving DecidableEq

section
variable {L M K : Type}

abbrev Ops : Part L M K → Signature
  | .listener _ => NinepShared.ninep
  | .mount _ => fuse
  | .sftp _ => sftp

abbrev Tasks (ι : L → Type) : Part L M K → Type
  | .listener l => ι l
  | .mount _ => Unit
  | .sftp _ => Unit

abbrev States : Part L M K → Type
  | .listener _ => NinepShared.Shared
  | .mount _ => Unit
  | .sftp _ => Unit

instance instDecidableEqTasks (ι : L → Type) [∀ l, DecidableEq (ι l)] :
    ∀ f : Part L M K, DecidableEq (Tasks ι f)
  | .listener l => inferInstanceAs (DecidableEq (ι l))
  | .mount _ => inferInstanceAs (DecidableEq Unit)
  | .sftp _ => inferInstanceAs (DecidableEq Unit)

def asking : ∀ f : Part L M K, Asking (Ops f) Request (Except String Response)
  | .listener _ => ninepAsking
  | .mount _ => fuseAsking
  | .sftp _ => sftpAsking

/-- What the frontends do without the router. The clock is free, and so is the order in which
a mount finds the inodes of a path. -/
def steps : ∀ f : Part L M K, Semantics (Ops f) (States f)
  | .listener _ => NinepShared.semantics NinepRuns.anyRouter
  | .mount _ => fun _ _ _ _ => True
  | .sftp _ => fun _ _ _ _ => True

def program {ι : L → Type} (msgs : ∀ l, ι l → List NinepHandlers.Message) (mounted : M → ℕ)
    (cbs : M → List Callback) (packets : K → List Packet) :
    ∀ f : Part L M K, Config (Ops f) (Tasks ι f) (States f)
  | .listener l => NinepRuns.listener (msgs l)
  | .mount m => single (FuseFilesystem.session (mounted m) .new (cbs m))
  | .sftp k => single (SftpSessions.sftpLoop .new (packets k))

end

def rootTable : PatternMap := AList.singleton "/" ⟨AList.singleton "read" "root", "/"⟩

def readRoot : ∀ f : Part Unit Unit Unit, Config (Ops f) (Tasks (fun _ => Unit) f) (States f) :=
  program (fun _ _ => []) (fun _ => 0) (fun _ => [.read 1 0 10]) fun _ => [.stat 7 "/"]

theorem stack_root : ∃ s : Stack (together Ops) (Σ f, Tasks (fun _ : Unit => Unit) f)
      (∀ f : Part Unit Unit Unit, States f) counter Unit ℕ,
    StackReachable (askingOf asking) (beside steps) staticTrie rootTable ⟨1, 4⟩ countingCode
        counting (allOf readRoot) 5 s ∧
      s.trace.length = 2 ∧ s.service.world = 6 := by
  have h₀ : StackReachable (askingOf asking) (beside steps) staticTrie rootTable ⟨1, 4⟩
    countingCode counting (allOf readRoot) 5 (started ⟨1, 4⟩ countingCode (allOf readRoot) 5) :=
      .start
  have h₁ := h₀.step (.send ⟨.mount (), ()⟩ _ _ ⟨.read, "/", []⟩ _ rfl rfl rfl rfl)
  have h₂ := h₁.step (.send ⟨.sftp (), ()⟩ _ _ ⟨.getAttr, "/", []⟩ _ rfl rfl rfl rfl)
  have h₃ := h₂.step (.giveUp ⟨.sftp (), ()⟩ 1 _ _ ⟨.getAttr, "/", []⟩ none rfl rfl rfl
    (by decide) rfl)
  have h₄ := h₃.serve .dequeue rfl rfl rfl
  have h₅ := h₄.serve .send rfl rfl rfl
  have h₆ := h₅.serve (.pool .dispatch) rfl rfl rfl
  have h₇ := h₆.serve (.pool (.built 0)) rfl rfl rfl
  have h₈ := h₇.serve (.pool (.take 0)) rfl rfl rfl
  have h₉ := h₈.step (.serve _ (Step.call (S := counter) 0 0 [] ()
    (fun n => .done ((), .ok [UInt8.ofNat n])) (5 : ℕ) rfl rfl ⟨rfl, rfl⟩) rfl)
  have h₁₀ := h₉.serve (.pool (.complete 0)) rfl rfl rfl
  have h₁₁ := h₁₀.serve .resolve rfl rfl rfl
  have h₁₂ := h₁₁.step (.receive ⟨.mount (), ()⟩ 0 _ _ ⟨.read, "/", []⟩ rfl _ rfl rfl rfl)
  exact ⟨_, h₁₂, rfl, rfl⟩

end Pinhead.WholeProgram
