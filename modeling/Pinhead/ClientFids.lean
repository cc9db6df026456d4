import Pinhead.ClientWrites

/-!
# The fids that the operations leave behind

An operation takes a fid that it has not used before, binds it by its walk, and is meant
to have released it when it returns. It does so only at its end: whatever makes it return
between the walk and the clunk leaves the fid bound, and a remove has no clunk at all.

`Usage.Tidy` says when an operation does not take such a way. Its conditions are on the
operation, on the server's state before it, and on what the router answers.
-/
namespace Pinhead.ClientFids
open ByteStrings ByteStreams FsRequests Resumption Histories NinepShared NinepHandlers NinepRuns
open NinepTotality NinepDatagrams NinepConnections NinepScripts NinepCalls NinepLockstep StatRecords
open NinepClient (components dirPath)
open ClientOperations FidBindings ClientSessions ClientReads ClientWrites

/-! ## Requests that are accepted -/

/-- The answer is no refusal, or it is one that nobody looks at. -/
def Accepted : Answered ninep → Prop
  | ⟨.route req, a⟩ => req.op = .release ∨ Answer.accepted a = true
  | _ => True

def accepting (router : Request → Answer → Prop) (req : Request) (a : Answer) : Prop :=
  router req a ∧ (req.op = .release ∨ a.accepted = true)

theorem performs_accepting {R : Shared → Shared → Prop} {router : Request → Answer → Prop}
    {s s' : Shared} {h : List (Answered ninep)} (hs : Performs (amid R (semantics router)) s h s')
    (hh : ∀ e ∈ h, Accepted e) : Performs (amid R (semantics (accepting router))) s h s' := by
  induction hs with
  | refl s => exact .refl s
  | answer o r hstep _ ih =>
      obtain ⟨hfirst, hrest⟩ := List.forall_mem_cons.mp hh
      obtain ⟨t, ht, hsem⟩ := hstep
      refine .answer o r ⟨t, ht, ?_⟩ (ih hrest)
      cases o with
      | route req => exact ⟨⟨hsem.1, hfirst⟩, hsem.2⟩
      | _ => exact hsem

theorem dialogue_accepting {R : Shared → Shared → Prop} {router : Request → Answer → Prop}
    {ch ch' : Channel} {k : List Exchange} (hk : Dialogue (amid R (semantics router)) ch k ch')
    (h : ∀ x ∈ k, ∀ e ∈ x.history, Accepted e) :
    Dialogue (amid R (semantics (accepting router))) ch k ch' := by
  induction hk with
  | refl ch => exact .refl ch
  | exchange hx _ ih =>
      obtain ⟨hfirst, hrest⟩ := List.forall_mem_cons.mp h
      refine .exchange ?_ (ih hrest)
      cases hx with
      | replied hp hs hr => exact .replied hp (performs_accepting hs hfirst) hr
      | hungUp e hlong hsize hp hs hr =>
          exact .hungUp e hlong hsize hp (performs_accepting hs hfirst) hr
      | closed s c e => exact .closed s c e

theorem asks_release {x : String × Bool} {c : Call} {req : Request} (h : asks x c = some req) :
    req.op ≠ .release := by
  cases c with
  | version _ | attach _ _ | clunk _ => cases h
  | walk _ _ _ | write _ _ _ | stat _ =>
      obtain rfl := Option.some.inj h
      exact nofun
  | openFid _ _ | create _ _ _ _ | read _ _ _ | removeFid _ =>
      obtain rfl := Option.some.inj h
      dsimp only
      split <;> exact nofun

/-- A message about a bound fid does not fail if its request is accepted. -/
theorem effect_accepted {F : Set UInt32} {router : Request → Answer → Prop} {c : Call} {fid : UInt32}
    {b b' : Bindings} {e : String} {p : String × Bool} (hc : subject c = some fid) (hfid : fid ∈ F)
    (hb : b fid = some p) : ¬ Effect F (accepting router) c b (.failed e) b' := by
  intro h
  cases h with
  | unknown _ hsubject hnone =>
      obtain rfl := Option.some.inj (hc.symm.trans hsubject)
      rw [hnone hfid] at hb
      cases hb
  | refused _ _ _ hasks ha hrefused =>
      rcases ha.2 with hrelease | haccepted
      · exact asks_release hasks hrelease
      · rw [haccepted] at hrefused
        cases hrefused

/-! ## A walk that is refused -/

section
variable {A : Type} {h : List (Answered ninep)}

theorem accepted_append {a : Answered ninep} (hh : ∀ e ∈ h, Accepted e) (ha : Accepted a) :
    ∀ e ∈ h ++ [a], Accepted e :=
  List.forall_mem_append.mpr ⟨hh, List.forall_mem_singleton.mpr ha⟩

theorem accepted_lookupLast {isLast : Bool} {path : String}
    {Q : Except String Unit → List (Answered ninep) → Prop} (hh : ∀ e ∈ h, Accepted e)
    (hok : ∀ h', (∀ e ∈ h', Accepted e) → Q (.ok ()) h') (herr : ∀ e h', Q (.error e) h') :
    wp traced (lookupLast isLast path).run Q h := by
  unfold lookupLast
  split
  · refine wp_seq ⟨trivial, fun a _ => ?_⟩
    match a with
    | .routerGone => exact herr _ _
    | .handlerGone => exact herr _ _
    | .reply (.error e) => exact herr _ _
    | .reply (.ok r) =>
        refine hok _ (accepted_append hh ?_)
        exact Or.inr rfl
  · exact hok h hh

theorem accepted_walkTo {names : List String} {w : Walk}
    {Q : Except String Walk → List (Answered ninep) → Prop} (hh : ∀ e ∈ h, Accepted e)
    (hok : ∀ w h', (∀ e ∈ h', Accepted e) → Q (.ok w) h') (herr : ∀ e h', Q (.error e) h') :
    wp traced (walkTo names w).run Q h := by
  induction names generalizing w h with
  | nil => exact hok w h hh
  | cons name names ih =>
      refine wp_seq (accepted_lookupLast hh (fun h' hh' => ?_) herr)
      refine wp_seq ⟨trivial, fun qid _ => ih (accepted_append hh' ?_)⟩
      trivial

/-- A walk with a request that was refused has failed. -/
theorem accepted_walk {fid newFid : UInt32} {names : List String} {body : Bytes}
    (hbody : (Call.walk fid newFid names).body.length ≤ 65536)
    (hE : Ended (.walk fid newFid names) h (.replied body)) : ∀ e ∈ h, Accepted e := by
  obtain ⟨_, hp⟩ := ended_replied hE
  rw [handleMessage_eq_served (fields_message hbody)] at hp
  refine hp.traced (Q := fun r h => r = .ok () → ∀ e ∈ h, Accepted e) ?_ rfl
  refine wp_seq (wp_seq ⟨trivial, fun entry _ => ?_⟩)
  match entry with
  | none => exact nofun
  | some e =>
      have hfirst : ∀ a ∈ [(⟨.locked (.getFid fid), some e⟩ : Answered ninep)], Accepted a :=
        List.forall_mem_singleton.mpr trivial
      refine wp_seq (accepted_walkTo hfirst (fun w h' hh' => ?_) fun e h' => nofun)
      refine wp_seq ⟨trivial, fun _ _ => ⟨trivial, fun _ _ _ => ?_⟩⟩
      refine accepted_append (accepted_append hh' ?_) ?_
      · trivial
      · trivial

end

/-! ## The record of a stat -/

/-- The client finds its fields in the record: with the size field in front of it, it takes
the upper end of the length for the length of the name. -/
def Legible : Answered ninep → Prop
  | ⟨.route ⟨.getAttr, path, _⟩, .reply (.ok r)⟩ =>
      41 + r.data.length / 256 ^ 6 % 256 ^ 2 ≤ (52 + (asBytes (statName path)).length) % 256 ^ 2
  | _ => True

/-- The same in terms of the reply. -/
def HoldsName : Call → Bytes → Prop
  | .stat _, body => 41 + uintAt 2 body 41 ≤ uintAt 2 body 0
  | _, _ => True

theorem holdsName_record {fid : UInt32} {now : ℕ} {name : String} {qid : Qid} {length : ℕ}
    {isDir : Bool}
    (h : 41 + length / 256 ^ 6 % 256 ^ 2 ≤ (52 + (asBytes name).length) % 256 ^ 2) :
    HoldsName (.stat fid) (leBytes 2 (statBytes now name qid length isDir).length ++
      statBytes now name qid length isDir) := by
  have hsize : uintAt 2 (leBytes 2 (statBytes now name qid length isDir).length ++
      statBytes now name qid length isDir) 0 = (52 + (asBytes name).length) % 256 ^ 2 := by
    rw [uintAt_leBytes, statBytes_length]
  have hname : uintAt 2 (leBytes 2 (statBytes now name qid length isDir).length ++
      statBytes now name qid length isDir) (2 + 39) = length / 256 ^ 6 % 256 ^ 2 := by
    rw [uintAt_behind (leBytes_length 2 _), uintAt_high]
  change 41 + uintAt 2 _ (2 + 39) ≤ uintAt 2 _ 0
  rw [hsize, hname]
  exact h

theorem holdsName_of_ended {c : Call} {h : List (Answered ninep)} {body : Bytes}
    (hbody : c.body.length ≤ 65536) (hE : Ended c h (.replied body)) (hh : ∀ e ∈ h, Legible e) :
    HoldsName c body := by
  cases c with
  | stat fid =>
      cases hE with
      | @replied h ty _ hp hs =>
          rw [handleMessage_eq_served (fields_message hbody)] at hp
          have hwritten : ∃ body', HoldsName (.stat fid) body' ∧
              written (h ++ [⟨.send (message ty 0 body), ()⟩]) = message RSTAT 0 body' := by
            refine hp.traced (Q := fun r h => r = .ok () → (∀ e ∈ h, Legible e) →
              ∃ body', HoldsName (.stat fid) body' ∧ written h = message RSTAT 0 body') ?_ rfl hh
            refine wp_seq (wp_seq ⟨trivial, fun entry _ => ?_⟩)
            match entry with
            | none => exact nofun
            | some e =>
                refine wp_seq ⟨trivial, fun a _ => ?_⟩
                match a with
                | .routerGone => exact nofun
                | .handlerGone => exact nofun
                | .reply (.error e) => exact nofun
                | .reply (.ok r) =>
                    refine wp_seq ⟨trivial, fun now _ => ⟨trivial, fun _ _ _ hh => ?_⟩⟩
                    have hrecord : Legible ⟨.route ⟨.getAttr, e.path, []⟩, .reply (.ok r)⟩ :=
                      hh _ (by simp)
                    exact ⟨_, holdsName_record hrecord, List.append_nil _⟩
          obtain ⟨body', hname, hmsg⟩ := hwritten
          rw [written_reply hs] at hmsg
          have hsame : body = body' := by
            rw [← message_drop ty 0 body, hmsg, message_drop]
          rwa [hsame]
  | _ => trivial

/-! ## From the walk to the clunk -/

/-- A reply that fits its size field, and that the client can take apart. -/
def Readable (c : Call) (eo : Option Outcome) : Prop := c.body.length ≤ 65536 →
  ∀ body, eo = some (.replied body) → body.length < 2 ^ 32 - 7 ∧ HoldsName c body

theorem readable_of_ends {x : Exchange} {eo : Option Outcome} (hx : Ends x eo)
    (hh : ∀ e ∈ x.history, Fitting (offset x.call) e ∧ Legible e) : Readable x.call eo := by
  rintro hbody body rfl
  have hE : Ended x.call x.history (.replied body) := hx
  obtain ⟨_, hp⟩ := ended_replied hE
  obtain ⟨_, body', _, hE', _, hfits⟩ := replied_of_passes hbody hp
  rw [hE'.body_unique hE] at hfits
  exact ⟨hfits.mpr fun e he => (hh e he).1, holdsName_of_ended hbody hE fun e he => (hh e he).2⟩

/-- The server accepts all messages that come after the walk. -/
abbrev clean (router : Request → Answer → Prop) : Spec wire View :=
  heard Set.univ (accepting router) Readable

/-- The fid is bound and nothing else is changed, unless the rounds have run out. -/
def Held (b : Bindings) (fid : UInt32) {A : Type} : Except Stop A → View → Prop
  | .ok _, v => ∃ p, v = ⟨Function.update b fid (some p), true⟩
  | .error stop, _ => stop = .exhausted

/-- All fids stand for what they stood for, unless the rounds have run out. -/
def Restored (b : Bindings) {A : Type} (r : Except Stop A) (v : View) : Prop :=
  r = .error .exhausted ∨ v.bound = b

section
variable {router : Request → Answer → Prop} {b : Bindings} {fid : UInt32} {p : String × Bool}

theorem clean_sendRecv {c : Call} (hc : subject c = some fid) (hb : b fid = some p)
    (hsize : c.body.length ≤ 65536) {Q : Except Stop Bytes → View → Prop}
    (hok : ∀ body b', Effect Set.univ (accepting router) c b (.replied body) b' →
      body.length < 2 ^ 32 - 7 → HoldsName c body → Q (.ok body) ⟨b', true⟩) :
    wp (clean router) (sendRecv c).run Q ⟨b, true⟩ := by
  refine heard_sendRecv (by omega) (fun hbody body b' heffect hA => ?_) (fun e heffect _ => ?_)
    fun hlong => absurd hlong (not_lt.mpr hsize)
  · obtain ⟨hshort, hname⟩ := hA hbody body rfl
    exact ⟨hshort, hok body b' heffect hshort hname⟩
  · exact absurd heffect (effect_accepted hc (Set.mem_univ fid) hb)

theorem held_openFid {mode : UInt8} : wp (clean router) (openFid fid mode).run (Held b fid)
    ⟨Function.update b fid (some p), true⟩ := by
  refine wp_seq (clean_sendRecv rfl (Function.update_self ..) (by simp [Call.body]) ?_)
  intro body b' heffect _ _
  cases heffect with
  | openFid _ => exact ⟨p, rfl⟩

/-- The new file takes the fid over. -/
theorem held_create {name : String} {perm : UInt32} {mode : UInt8}
    (hsize : (Call.create fid name perm mode).body.length ≤ 65536) :
    wp (clean router) (create fid name perm mode).run (Held b fid)
      ⟨Function.update b fid (some p), true⟩ := by
  refine wp_seq (clean_sendRecv rfl (Function.update_self ..) hsize ?_)
  intro body b' heffect _ _
  cases heffect with
  | create _ _ => exact ⟨_, by rw [Function.update_idem]⟩

theorem held_readLoop {count : UInt32} {fuel : ℕ} {offset : UInt64} {raw : Bytes} :
    wp (clean router) (readLoop fid count fuel offset raw).run (Held b fid)
      ⟨Function.update b fid (some p), true⟩ := by
  induction fuel generalizing offset raw with
  | zero => rfl
  | succ fuel ih =>
      refine wp_seq (clean_sendRecv rfl (Function.update_self ..) (by simp [Call.body]) ?_)
      intro body b' heffect hshort _
      have hchunk : ∃ chunk, body = leBytes 4 chunk.length ++ chunk ∧
          b' = Function.update b fid (some p) := by
        cases heffect with
        | listed chunk _ => exact ⟨chunk, rfl, rfl⟩
        | read _ _ => exact ⟨_, rfl, rfl⟩
      obtain ⟨chunk, rfl, rfl⟩ := hchunk
      rw [List.length_append, leBytes_length] at hshort
      exact wp_readRound (by omega) (fun _ => ⟨p, rfl⟩) fun _ => ih

theorem held_writeLoop {msize : UInt32} (hmsize : 24 ≤ msize.toNat) (hsmall : msize.toNat ≤ 65536)
    {data : Bytes} {fuel : ℕ} {offset : UInt64} :
    wp (clean router) (writeLoop fid msize data fuel offset).run (Held b fid)
      ⟨Function.update b fid (some p), true⟩ := by
  induction fuel generalizing offset with
  | zero => rfl
  | succ fuel ih =>
      by_cases hlt : offset.toNat < data.length
      · rw [writeLoop_round hlt hmsize]
        have hlength := @chunkAt_length data msize offset
        have hsize : (Call.write fid offset (chunkAt data msize offset)).body.length ≤ 65536 := by
          simp only [Call.body, List.length_append, leBytes_length]
          omega
        refine wp_seq (clean_sendRecv rfl (Function.update_self ..) hsize ?_)
        intro body b' heffect _ _
        cases heffect with
        | write _ _ => exact ih
      · rw [writeLoop_done (not_lt.mp hlt)]
        exact ⟨p, rfl⟩

/-- With its fields in range, the client takes the record apart. -/
theorem parseStat_of_le {data : Bytes} (h : 41 + uintAt 2 data 39 ≤ data.length) :
    ∃ report, parseStat data = pure report := by
  rw [parseStat, uintFrom_of_le (by omega), pure_bind, uintFrom_of_le (by omega), pure_bind,
    uintFrom_of_le (by omega), pure_bind, part_of_le (by omega) (by omega), pure_bind]
  exact ⟨_, rfl⟩

theorem held_seq {A B : Type} {x : Operation A} {f : A → Operation B} {v : View}
    (hx : wp (clean router) x.run (Held b fid) v)
    (hf : ∀ a p, wp (clean router) (f a).run (Restored b) ⟨Function.update b fid (some p), true⟩) :
    wp (clean router) (x >>= f).run (Restored b) v := by
  refine wp_seq (wp_mono heard_monotone _ ?_ _ hx)
  intro r v hr
  cases r with
  | error stop => exact Or.inl (congrArg Except.error hr)
  | ok a =>
      obtain ⟨p, rfl⟩ := hr
      exact hf a p

/-- The clunk puts everything back, and what comes behind it sends nothing. -/
theorem restored_clunk {A : Type} (hfree : b fid = none) {x : Operation A} (hx : Within 0 x.run) :
    wp (clean router) (ignoring (clunk fid) >>= fun _ => x).run (Restored b)
      ⟨Function.update b fid (some p), true⟩ := by
  refine wp_seq (heard_clunk (hx.wp_of_zero fun r => Or.inr ?_))
  rw [Function.update_idem, ← hfree, Function.update_eq_self]

theorem within_parseLine (long : Bool) (raw : Bytes) (off : ℕ) :
    Within 0 (parseLine long raw off).run := by
  refine Within.run_free (within_uintFrom _ _ _) fun _ => ?_
  refine Within.run_free (within_uintFrom _ _ _) fun _ => ?_
  refine Within.run_free (within_uintFrom _ _ _) fun _ => ?_
  exact Within.run_free (within_part _ _ _) fun _ => .done 0 _

theorem within_parseLines (long : Bool) (raw : Bytes) (fuel off : ℕ) :
    Within 0 (parseLines long raw fuel off).run := by
  induction fuel generalizing off with
  | zero => exact .done 0 _
  | succ fuel ih =>
      unfold parseLines
      split
      · refine Within.run_free (within_uintFrom _ _ _) fun _ => ?_
        split
        · exact .done 0 _
        · refine Within.run_free (within_parseLine _ _ _) fun _ => ?_
          exact Within.run_free (ih _) fun _ => .done 0 _
      · exact .done 0 _

/-- A walk that does not succeed leaves everything as it is, and ends the operation. -/
theorem restored_walk {newFid : UInt32} {path : String} {rest : Operation String}
    (hsize : (Call.walk 1 newFid (components path)).body.length < 2 ^ 32 - 7)
    (hrest : ∀ p, wp (clean router) rest.run (Restored b)
      ⟨Function.update b newFid (some p), true⟩) :
    wp (clean router) (walk 1 newFid path >>= fun _ => rest).run (Restored b) ⟨b, true⟩ :=
  wp_seq (heard_walk hsize (fun _ _ => hrest _) (fun _ _ _ => Or.inr rfl) fun _ _ _ => Or.inr rfl)

end

/-! ## The commands -/

/-- Where the walk of a command leads. -/
def Command.target : Command → String
  | .readFile path | .writeFile path _ | .stat path | .remove path => path
  | .ls path _ => dirPath path
  | .mkdir path | .createFile path => (splitParentName path).1

/-- The message that carries the name of a new file. -/
def Command.creates (c : Client) : Command → Option Call
  | .mkdir path => some (.create c.nextFid (splitParentName path).2 0x800001ed 0)
  | .createFile path => some (.create c.nextFid (splitParentName path).2 0x1a4 1)
  | _ => none

/-- Every command starts with its walk. -/
theorem run_walks (fuel : ℕ) (c : Client) (cmd : Command) : ∃ rest : Operation String,
    cmd.run fuel c = walk 1 c.nextFid (Command.target cmd) >>= fun _ => rest := by
  cases cmd with
  | _ => exact ⟨_, rfl⟩

section
variable {router : Request → Answer → Prop} {b : Bindings} {c : Client}

theorem restored_createIn (hfree : b c.nextFid = none) {path : String} {perm : UInt32}
    {mode : UInt8}
    (hsize : (Call.walk 1 c.nextFid (components (splitParentName path).1)).body.length < 2 ^ 32 - 7)
    (hname : (Call.create c.nextFid (splitParentName path).2 perm mode).body.length ≤ 65536) :
    wp (clean router) (createIn c path perm mode).run (Restored b) ⟨b, true⟩ :=
  restored_walk hsize fun _ => held_seq (held_create hname) fun _ _ =>
    restored_clunk hfree (.done 0 _)

theorem restored_stat (hfree : b c.nextFid = none) {path : String}
    (hsize : (Call.walk 1 c.nextFid (components path)).body.length < 2 ^ 32 - 7) :
    wp (clean router) (stat c path).run (Restored b) ⟨b, true⟩ := by
  refine restored_walk hsize fun p => ?_
  refine wp_seq (clean_sendRecv rfl (Function.update_self ..) (by simp [Call.body]) ?_)
  intro body b' heffect _ hname
  cases heffect with
  | stat _ _ record =>
      have hname' : 41 + uintAt 2 (leBytes 2 record.length ++ record) 41 ≤
          uintAt 2 (leBytes 2 record.length ++ record) 0 := hname
      have hsize' : uintAt 2 (leBytes 2 record.length ++ record) 0 = record.length % 256 ^ 2 :=
        uintAt_leBytes 2 _ _
      have hle : record.length % 256 ^ 2 ≤ record.length := Nat.mod_le _ _
      have hbody : (leBytes 2 record.length ++ record).length = 2 + record.length := by
        rw [List.length_append, leBytes_length]
      dsimp only [onSuccess]
      rw [hsize'] at hname'
      rw [uintFrom_of_le (by omega), pure_bind, hsize', part_of_le (by omega) (by omega), pure_bind,
        List.drop_left' (leBytes_length 2 _), Nat.add_sub_cancel_left]
      have hdata : (record.take (record.length % 256 ^ 2)).length = record.length % 256 ^ 2 := by
        rw [List.length_take]
        omega
      have hfield : uintAt 2 (record.take (record.length % 256 ^ 2)) 39 =
          uintAt 2 (leBytes 2 record.length ++ record) (2 + 39) := by
        rw [uintAt_behind (leBytes_length 2 _), uintAt, uintAt, List.drop_take, List.take_take,
          Nat.min_eq_left (by omega)]
      have hrange : 41 + uintAt 2 (record.take (record.length % 256 ^ 2)) 39 ≤
          (record.take (record.length % 256 ^ 2)).length := by
        rw [hfield, hdata]
        exact hname'
      obtain ⟨report, hreport⟩ := parseStat_of_le hrange
      rw [hreport, pure_bind]
      exact restored_clunk hfree (.done 0 _)

/-- A command with a free fid that is no remove puts everything back. -/
theorem restored_run (hmsize : 24 ≤ c.msize.toNat) (hsmall : c.msize.toNat ≤ 65536)
    (hfree : b c.nextFid = none) {cmd : Command} (hkept : ∀ path, cmd ≠ .remove path)
    (hsize : (Call.walk 1 c.nextFid (components (Command.target cmd))).body.length < 2 ^ 32 - 7)
    (hname : ∀ m, Command.creates c cmd = some m → m.body.length ≤ 65536) (fuel : ℕ) :
    wp (clean router) (cmd.run fuel c).run (Restored b) ⟨b, true⟩ := by
  cases cmd with
  | readFile path =>
      exact restored_walk hsize fun _ => held_seq held_openFid fun _ _ =>
        held_seq held_readLoop fun _ _ => restored_clunk hfree (.done 0 _)
  | writeFile path data =>
      exact restored_walk hsize fun _ => held_seq held_openFid fun _ _ =>
        held_seq (held_writeLoop hmsize hsmall) fun _ _ => restored_clunk hfree (.done 0 _)
  | stat path => exact restored_stat hfree hsize
  | ls path long =>
      refine restored_walk hsize fun _ => held_seq held_openFid fun _ _ =>
        held_seq held_readLoop fun raw _ => restored_clunk hfree ?_
      exact Within.run_free (within_parseLines long raw _ _) fun _ => .done 0 _
  | mkdir path => exact restored_createIn hfree hsize (hname _ rfl)
  | createFile path => exact restored_createIn hfree hsize (hname _ rfl)
  | remove path => exact absurd rfl (hkept path)

end

/-! ## Sessions -/

/-- The fids in the server's table. -/
def fids (s : Shared) : Set UInt32 := {f | f ∈ s.state.fids}

theorem mem_fids {s : Shared} {f : UInt32} : f ∈ fids s ↔ bindings s f ≠ none := by
  rw [bindings, ne_eq, Option.map_eq_none_iff, ← ne_eq, ← Option.isSome_iff_ne_none]
  exact AList.lookup_isSome.symm

theorem fids_eq {s s' : Shared} (h : bindings s = bindings s') : fids s = fids s' := by
  ext f
  rw [mem_fids, mem_fids, h]

/-- One operation from its call to its result. -/
structure Usage where
  client : Client
  command : Command
  fuel : ℕ
  before : Channel
  exchanges : List Exchange
  result : Except Stop String
  after : Channel

/-- The operations of one client, one behind the other. Other connections may do anything
meanwhile but bind and release fids. -/
inductive Session (router : Request → Answer → Prop) : Client → Channel → List Usage → Prop
  | nil (c : Client) (ch : Channel) : Session router c ch []
  | use {u : Usage} {us : List Usage} :
      Dialogue (amid (Spares Set.univ) (semantics router)) u.before u.exchanges u.after →
      Passes (u.command.run u.fuel u.client).run (answers u.exchanges) (.done u.result) →
      u.result ≠ .error .exhausted → Session router u.client.allocated u.after us →
      Session router u.client u.before (u :: us)

def Usage.walk (u : Usage) : Call :=
  .walk 1 u.client.nextFid (components (Command.target u.command))

/-- The walk does not succeed: the connection is closed, the message is too long for the
server, the root is not attached, or the router refuses the lookup. -/
def Usage.Stopped (u : Usage) : Prop :=
  u.before.link = none ∨ 65536 < u.walk.body.length ∨ bindings u.before.shared 1 = none ∨
    ∃ x ∈ u.exchanges.head?, ∃ e ∈ x.history, ¬ Accepted e

/-- The fid is not bound yet, and nothing stands in the way of a clunk. -/
structure Usage.Clean (u : Usage) : Prop where
  free : bindings u.before.shared u.client.nextFid = none
  kept : ∀ path, u.command ≠ .remove path
  short : ∀ m, Command.creates u.client u.command = some m → m.body.length ≤ 65536
  accepted : ∀ x ∈ u.exchanges, ∀ e ∈ x.history,
    Accepted e ∧ Fitting (offset x.call) e ∧ Legible e

def Usage.Tidy (u : Usage) : Prop := u.walk.body.length < 2 ^ 32 - 7 ∧ (u.Stopped ∨ u.Clean)

section
variable {router : Request → Answer → Prop} {u : Usage} {opened : Bool}

/-- An operation whose walk does not succeed ends there. -/
theorem stopped_restored
    (hk : Dialogue (amid (Spares Set.univ) (semantics router)) u.before u.exchanges u.after)
    (hp : Passes (u.command.run u.fuel u.client).run (answers u.exchanges) (.done u.result))
    (hv : Seen Set.univ u.before ⟨bindings u.before.shared, opened⟩)
    (hsize : u.walk.body.length < 2 ^ 32 - 7) (hstopped : u.Stopped) :
    ∃ v, Seen Set.univ u.after v ∧ v.bound = bindings u.before.shared := by
  obtain ⟨client, cmd, fuel, ch, k, r, ch'⟩ := u
  obtain ⟨rest, hrun⟩ := run_walks fuel client cmd
  dsimp only at hk hp hv ⊢
  rw [hrun] at hp
  cases hk with
  | refl ch => cases hp
  | @exchange _ ch₁ _ x k hx hk =>
      obtain ⟨c, history, result⟩ := x
      cases hp with
      | answer o next _ hp =>
          have hfirst : heard Set.univ router (fun _ => Ends ⟨.walk 1 client.nextFid
              (components (Command.target cmd)), history, result⟩) (.walk 1 client.nextFid
              (components (Command.target cmd))) (fun r v => (∃ e, r = .error e) ∧
              v.bound = bindings ch.shared) ⟨bindings ch.shared, opened⟩ := by
            cases opened with
            | false => exact fun _ e => ⟨⟨e, rfl⟩, rfl⟩
            | true =>
                refine ⟨hsize, fun hbody o b' heffect hends => ?_, fun _ _ e => ⟨⟨e, rfl⟩, rfl⟩⟩
                cases o with
                | failed e => exact ⟨trivial, ⟨_, rfl⟩, effect_failed heffect⟩
                | replied body =>
                    rcases hstopped with hnone | hlong | hroot | ⟨x, hx, e, he, hrefused⟩
                    · cases hnone.symm.trans hv.link
                    · exact absurd hlong (not_lt.mpr hbody)
                    · cases heffect with
                      | walk hparent _ => cases hroot.symm.trans (hparent trivial)
                    · obtain rfl := Option.some.inj hx
                      exact absurd (accepted_walk hbody hends e he) hrefused
          obtain ⟨_, v, hv', ⟨e, rfl⟩, hbound⟩ := hx.heard hv (fun eo heo => heo) hfirst
          obtain ⟨hnil, _⟩ := passes_done hp
          obtain rfl := List.map_eq_nil_iff.mp hnil
          cases hk
          exact ⟨v, hv', hbound⟩

/-- One operation, and its connection is in step or closed again. -/
theorem tidy_restored (hmsize : 24 ≤ u.client.msize.toNat) (hsmall : u.client.msize.toNat ≤ 65536)
    (hk : Dialogue (amid (Spares Set.univ) (semantics router)) u.before u.exchanges u.after)
    (hp : Passes (u.command.run u.fuel u.client).run (answers u.exchanges) (.done u.result))
    (hdone : u.result ≠ .error .exhausted)
    (hv : Seen Set.univ u.before ⟨bindings u.before.shared, opened⟩) (htidy : u.Tidy) :
    ∃ v, Seen Set.univ u.after v ∧ v.bound = bindings u.before.shared := by
  obtain ⟨hsize, hstopped | hclean⟩ := htidy
  · exact stopped_restored hk hp hv hsize hstopped
  · cases opened with
    | false => exact stopped_restored hk hp hv hsize (Or.inl hv.link)
    | true =>
        have hk' := dialogue_accepting hk fun x hx e he => (hclean.accepted x hx e he).1
        have hreadable : ∀ x ∈ u.exchanges, ∀ eo, Ends x eo → Readable x.call eo :=
          fun x hx eo heo => readable_of_ends heo fun e he => (hclean.accepted x hx e he).2
        obtain ⟨_, v, hv', hrestored⟩ := hk'.heard hp hv hreadable
          (restored_run hmsize hsmall hclean.free hclean.kept hsize hclean.short u.fuel)
        exact ⟨v, hv', hrestored.resolve_left hdone⟩

theorem session_kept {c : Client} (hmsize : 24 ≤ c.msize.toNat) (hsmall : c.msize.toNat ≤ 65536)
    {ch : Channel} {us : List Usage} (hs : Session router c ch us)
    (hv : Seen Set.univ ch ⟨bindings ch.shared, opened⟩) (htidy : ∀ u ∈ us, u.Tidy) :
    ∀ u ∈ us, bindings u.after.shared = bindings u.before.shared := by
  induction hs generalizing opened with
  | nil c ch => exact fun u hu => absurd hu List.not_mem_nil
  | @use u us hk hp hdone _ ih =>
      obtain ⟨hfirst, hrest⟩ := List.forall_mem_cons.mp htidy
      obtain ⟨v, hv', hbound⟩ := tidy_restored hmsize hsmall hk hp hdone hv hfirst
      have hafter : bindings u.after.shared = v.bound := funext fun f => hv'.bound f trivial
      refine List.forall_mem_cons.mpr ⟨hafter.trans hbound, ?_⟩
      exact ih hmsize hsmall ⟨fun _ _ => rfl, hv'.link⟩ hrest

end

/-- In a session whose operations are all tidy, each leaves exactly the fids that it has
found. -/
theorem session_keeps_fids {router : Request → Answer → Prop} {c : Client} (hc : Versioned c)
    {ch : Channel} (hlink : ch.link = some Link.new) {us : List Usage}
    (hs : Session router c ch us) (htidy : ∀ u ∈ us, u.Tidy) :
    ∀ u ∈ us, fids u.after.shared = fids u.before.shared := by
  obtain ⟨hlow, hhigh⟩ := versioned_bounds hc
  have hv : Seen Set.univ ch ⟨bindings ch.shared, true⟩ := ⟨fun _ _ => rfl, hlink⟩
  exact fun u hu => fids_eq (session_kept (by omega) hhigh hs hv htidy u hu)

def readingA (text : String) : Usage :=
  ⟨⟨8192, 4⟩, .readFile "a", 2, ⟨rootAttached 8192, some Link.new⟩, exchangesHi, .ok text,
    ⟨((Critical.removeFid 4).exec fileOpened).2, some Link.new⟩⟩

theorem tidy_readingA (text : String) : (readingA text).Tidy := by
  have hsize : (Call.walk 1 4 (components "a")).body.length < 2 ^ 32 - 7 := by decide
  refine ⟨hsize, Or.inr ⟨rfl, nofun, nofun, ?_⟩⟩
  change ∀ x ∈ exchangesHi, _
  simp [exchangesHi, walkExchange, openExchange, readAt, clunkExchange, walking, opening, reading,
    clunking, Accepted, Fitting, Legible, Answer.accepted]

/-- A file that is read whole leaves no fid behind. -/
theorem session_keeps_fids_reading : ∃ text : String,
    Session (serving [104, 105]) ⟨8192, 4⟩ ⟨rootAttached 8192, some Link.new⟩ [readingA text] ∧
    ∀ u ∈ [readingA text], fids u.after.shared = fids u.before.shared := by
  obtain ⟨text, hp⟩ := passes_hi
  have hc : Versioned ⟨8192, 4⟩ := versioned_of_bounds (by decide) (by decide)
  have hs : Session (serving [104, 105]) ⟨8192, 4⟩ ⟨rootAttached 8192, some Link.new⟩
      [readingA text] := @Session.use _ (readingA text) [] (dialogue_hi Set.univ) hp nofun (.nil _ _)
  have htidy : ∀ u ∈ [readingA text], u.Tidy := List.forall_mem_singleton.mpr (tidy_readingA text)
  exact ⟨text, hs, session_keeps_fids hc rfl hs htidy⟩

/-! ## Removes -/

theorem heard_remove {router : Request → Answer → Prop} {b : Bindings} {c : Client} {path : String}
    (hsize : (Call.walk 1 c.nextFid (components path)).body.length < 2 ^ 32 - 7) :
    wp (heard Set.univ router Granted) (remove c path).run (fun _ v => v.bound c.nextFid ≠ none)
      ⟨b, true⟩ := by
  have hlength : (Call.removeFid c.nextFid).body.length = 4 := by simp [Call.body]
  have hbound : ∀ p : String × Bool, Function.update b c.nextFid (some p) c.nextFid ≠ none := by
    intro p
    rw [Function.update_self]
    exact Option.some_ne_none p
  refine wp_seq (heard_walk hsize (fun x _ => ?_)
    (fun e hA => (granted_failed hA trivial).elim) fun _ hA => (granted_none hA trivial).elim)
  refine wp_seq (wp_seq (heard_sendRecv (by omega) (fun _ body b' heffect _ => ?_)
    (fun e _ _ text => hbound _) (by omega)))
  cases heffect with
  | removeFid _ _ => exact ⟨by decide, hbound _⟩

/-- Whatever becomes of a remove, its fid stays bound once its walk has succeeded. -/
theorem remove_keeps_fid {router : Request → Answer → Prop} {c : Client} {path : String}
    {ch ch' : Channel} (hlink : ch.link = some Link.new)
    (hsize : (Call.walk 1 c.nextFid (components path)).body.length < 2 ^ 32 - 7)
    {k : List Exchange} {r : Except Stop String}
    (hk : Dialogue (amid (Spares Set.univ) (semantics router)) ch k ch')
    (hp : Passes (remove c path).run (answers k) (.done r))
    (hwalk : ∀ x ∈ k, Opening x.call → Succeeds x) : c.nextFid ∈ fids ch'.shared := by
  have hv : Seen Set.univ ch ⟨bindings ch.shared, true⟩ := ⟨fun _ _ => rfl, hlink⟩
  have hgranted : ∀ x ∈ k, ∀ eo, Ends x eo → Granted x.call eo :=
    fun x hx eo heo hopening => (hwalk x hx hopening).replied heo
  obtain ⟨_, v, hv', hbound⟩ := hk.heard hp hv hgranted (heard_remove hsize)
  rw [mem_fids, hv'.bound _ trivial]
  exact hbound

def removing : List (Answered ninep) :=
  [⟨.locked (.getFid 4), some (⟨1, "/a", false, false⟩ : FidEntry)⟩,
    ⟨.route ⟨.unlink, "/a", []⟩, .reply (.ok ⟨[], none, false⟩)⟩]

def removeExchange : Exchange :=
  ⟨.removeFid 4, removing ++ [⟨.send (message RREMOVE 0 []), ()⟩], .ok []⟩

theorem passes_removing : Passes ((Call.removeFid 4).served 0).run
    (removing ++ [⟨.send (message RREMOVE 0 []), ()⟩]) (.done (.ok ())) :=
  .answer _ _ _ (.answer _ _ _ (.answer _ _ _ (.refl _)))

theorem exchanged_remove {F : Set UInt32} : Exchanged (amid (Spares F) (semantics (serving [])))
    ⟨fileWalked 65536, some Link.new⟩ removeExchange ⟨fileWalked 65536, some Link.new⟩ :=
  .served (by decide) passes_removing (silence_of rfl) (by decide) (by decide)
    (Performs.amid (idle_spares F) (.answer _ _ (semantics_exec _ _) (.answer _ _ ⟨rfl, rfl⟩
      (.answer _ _ rfl (.refl _)))))

def removingA : Usage :=
  ⟨⟨65536, 4⟩, .remove "a", 0, ⟨rootAttached 65536, some Link.new⟩,
    [walkExchange, removeExchange], .ok "", ⟨fileWalked 65536, some Link.new⟩⟩

theorem session_removing :
    Session (serving []) ⟨65536, 4⟩ ⟨rootAttached 65536, some Link.new⟩ [removingA] :=
  @Session.use _ removingA [] (.exchange (exchanged_walk 65536) (.exchange exchanged_remove (.refl _)))
    (.answer _ _ _ (.answer _ _ _ (.refl _))) nofun (.nil _ _)

/-- The file is gone, and its fid is still bound. -/
theorem removal_leaks : ¬ ∀ (router : Request → Answer → Prop) (c : Client) (ch : Channel)
    (us : List Usage), Versioned c → ch.link = some Link.new → Session router c ch us →
    ∀ u ∈ us, fids u.after.shared = fids u.before.shared := by
  intro h
  have hc : Versioned ⟨65536, 4⟩ := versioned_of_bounds (by decide) (by decide)
  have hsame := h _ _ _ _ hc rfl session_removing removingA (List.mem_singleton_self _)
  have hbound : (4 : UInt32) ∈ fids (fileWalked 65536) := by
    change (4 : UInt32) ∈ (fileWalked 65536).state.fids
    decide
  have hfree : (4 : UInt32) ∉ fids (rootAttached 65536) := by
    change (4 : UInt32) ∉ (rootAttached 65536).state.fids
    decide
  exact hfree (hsame ▸ hbound)

end Pinhead.ClientFids
