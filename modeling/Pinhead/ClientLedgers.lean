import Pinhead.ClientReads

/-!
# What a client knows about its fids

The server keeps for every fid what it stands for, and never tells: no reply says what a fid
is bound to. A client can still keep account of it, from its own messages and from whether they
succeeded. As long as no other connection binds its fids, the account is right after every
exchange, however the exchanges are interleaved with what the others do, and every reply is that
of the abstract server for the fids as the account has them.
-/
namespace Pinhead.ClientLedgers
open ByteStrings FsRequests Resumption Histories NinepShared NinepHandlers NinepRuns
open NinepCalls NinepLockstep ClientOperations FidBindings ClientSessions ClientReads

/-! ## The account -/

/-- What a message that succeeded does to the fids. -/
def succeeded (b : Bindings) : Call → Bindings
  | .attach fid _ => Function.update b fid (some ("/", true))
  | .walk fid newFid names =>
      match b fid with
      | some x =>
          Function.update b newFid (some (names.foldl joinPath x.1, walkedDir names x.2))
      | none => b
  | .create fid name perm _ =>
      match b fid with
      | some x => Function.update b fid (some (joinPath x.1 name, perm.toNat.testBit 31))
      | none => b
  | .clunk fid => Function.update b fid none
  | .version _ | .openFid _ _ | .read _ _ _ | .write _ _ _ | .removeFid _ | .stat _ => b

def learn (b : Bindings) (e : Answered wire) : Bindings :=
  match (e.answer : Except String Bytes) with
  | .ok _ => succeeded b e.op
  | .error _ => b

def ledger (b : Bindings) (h : List (Answered wire)) : Bindings := h.foldl learn b

section
variable {F : Set UInt32} {router : Request → Answer → Prop} {ch ch' : Channel} {b b' : Bindings}

/-- An effect leaves what the client concludes from the reply. -/
theorem learn_of_effect {c : Call} {o : Outcome} (h : Effect F router c b o b')
    (hF : ∀ fid, subject c = some fid → fid ∈ F) : learn b ⟨c, o.returned⟩ = b' := by
  cases h with
  | walk hfid _ =>
      have hbound := hfid (hF _ rfl)
      simp only [learn, Outcome.returned, succeeded, hbound]
  | create hfid _ =>
      have hbound := hfid (hF _ rfl)
      simp only [learn, Outcome.returned, succeeded, hbound]
  | _ => rfl

/-! ## One exchange -/

/-- The message is one that the client can send, about a fid of its own, and its reply fits the
32-bit size field. -/
structure Sane (F : Set UInt32) (x : Exchange) : Prop where
  size : x.call.body.length < 2 ^ 32 - 7
  own : ∀ fid, subject x.call = some fid → fid ∈ F
  short : ∀ o, Ended x.call x.history o → Short o

theorem Exchanged.learned {x : Exchange}
    (hx : Exchanged (amid (Spares F) (semantics router)) ch x ch') {opened : Bool}
    (hv : Seen F ch ⟨b, opened⟩) (hsane : Sane F x) :
    Seen F ch' ⟨learn b ⟨x.call, x.result⟩, opened && decide (x.call.body.length ≤ 65536)⟩ ∧
      ∀ body, x.result = .ok body →
        Effect F router x.call b (.replied body) (learn b ⟨x.call, x.result⟩) := by
  rcases hx.taken hv.link (fun _ => hsane.size) with
    ⟨rfl, hbody, hs, o, hended, hresult⟩ | ⟨hlong, _, ⟨e, he⟩, hshared, hlink⟩
  · obtain ⟨b', heffect, hb'⟩ := effect_of_ended hbody hended hs hv.bound
    obtain ⟨hreturned, hlink⟩ := hresult (hsane.short o hended)
    have hlearn := learn_of_effect heffect hsane.own
    rw [hreturned, hlearn]
    refine ⟨⟨hb', by rw [hlink]; simp [hbody]⟩, ?_⟩
    intro body hok
    cases o with
    | replied body' =>
        cases hok
        exact heffect
    | failed e => cases hok
  · rw [he]
    refine ⟨⟨?_, ?_⟩, ?_⟩
    · rw [hshared]
      exact hv.bound
    · rw [hlink]
      cases opened with
      | false => rfl
      | true => simp [hlong rfl]
    · intro body hok
      cases hok

/-! ## A dialogue -/

/-- After every part of a dialogue the account is right, and so is the next reply. -/
theorem dialogue_ledger {k : List Exchange}
    (hk : Dialogue (amid (Spares F) (semantics router)) ch k ch') {opened : Bool}
    (hv : Seen F ch ⟨b, opened⟩) (hsane : ∀ x ∈ k, Sane F x) :
    Seen F ch' ⟨ledger b (answers k),
        opened && k.all fun x => decide (x.call.body.length ≤ 65536)⟩ ∧
      ∀ k₁ x k₂, k = k₁ ++ x :: k₂ → ∀ body, x.result = .ok body →
        Effect F router x.call (ledger b (answers k₁)) (.replied body)
          (ledger b (answers (k₁ ++ [x]))) := by
  induction hk generalizing b opened with
  | refl ch =>
      refine ⟨by simpa [answers, ledger] using hv, ?_⟩
      intro k₁ x k₂ hsplit
      exact absurd hsplit.symm (by simp)
  | @exchange ch ch₁ ch₂ y k hy _ ih =>
      obtain ⟨hhead, hrest⟩ := List.forall_mem_cons.mp hsane
      obtain ⟨hseen, heffect⟩ := Exchanged.learned hy hv hhead
      obtain ⟨hlast, hlater⟩ := ih hseen hrest
      refine ⟨?_, ?_⟩
      · rw [List.all_cons, ← Bool.and_assoc]
        exact hlast
      · intro k₁ x k₂ hsplit body hok
        cases k₁ with
        | nil =>
            obtain ⟨rfl, rfl⟩ := List.cons.inj hsplit
            exact heffect body hok
        | cons z k₁ =>
            obtain ⟨rfl, rfl⟩ := List.cons.inj hsplit
            exact hlater k₁ x k₂ rfl body hok

end

/-! ### Reading a file -/

theorem sane_hi : ∀ x ∈ exchangesHi, Sane {1, 4} x := by
  have hshort : ∀ {c : Call} {h : List (Answered ninep)} {body : Bytes},
      Ended c h (.replied body) → body.length < 2 ^ 32 - 7 → ∀ o, Ended c h o → Short o := by
    intro c h body hended hlength o ho
    have hsame := @replied_of_ends ⟨c, h, .ok body⟩ body hended (some o) ho
    cases hsame
    exact hlength
  have hwalk := ended_of_served (by decide) passes_walking (silence_of rfl)
  have hopen := ended_of_served (by decide) (passes_openingFor 0) (silence_of rfl)
  have hread := fun offset =>
    ended_of_served (by simp [Call.body]) (passes_readingAt offset [104, 105]) (silence_of rfl)
  have hclunk := ended_of_served (by decide) passes_clunking (silence_of rfl)
  simp only [exchangesHi, List.forall_mem_cons]
  refine ⟨⟨by decide, ?_, hshort hwalk (by decide)⟩, ⟨by decide, ?_, hshort hopen (by decide)⟩,
    ⟨by decide, ?_, hshort (hread 0) (by decide)⟩, ⟨by decide, ?_, hshort (hread 2) (by decide)⟩,
    ⟨by decide, ?_, hshort hclunk (by decide)⟩, fun _ hx => absurd hx List.not_mem_nil⟩
  all_goals
    intro fid hfid
    cases hfid
  all_goals simp

end Pinhead.ClientLedgers
