import Pinhead.ClientSessions

/-!
# Whole files over the client

The client reads a file from the position behind what it has until a reply carries no
data. The server answers a read with all that is behind the position, whatever the count,
so a file takes two rounds: one for its bytes, and one for the empty rest.
-/
namespace Pinhead.ClientReads
open ByteStrings FsRequests Resumption Histories NinepShared NinepHandlers NinepRuns
open NinepTotality NinepDatagrams NinepScripts NinepCalls NinepLockstep
open NinepClient (components)
open ClientOperations FidBindings ClientSessions

/-! ## Reading -/

def Opening : Call → Prop
  | .walk _ _ _ | .openFid _ _ => True
  | _ => False

/-- The walks and opens end with their replies. -/
def Granted (c : Call) (eo : Option Outcome) : Prop := Opening c → ∃ body, eo = some (.replied body)

theorem granted_failed {c : Call} {e : String} (h : Granted c (some (.failed e))) :
    ¬ Opening c := by
  intro hc
  obtain ⟨body, hbody⟩ := h hc
  cases hbody

theorem granted_none {c : Call} (h : Granted c none) : ¬ Opening c := by
  intro hc
  obtain ⟨body, hbody⟩ := h hc
  cases hbody

/-- The router answers every read of the file with the same bytes. -/
def Holds (router : Request → Answer → Prop) (path : String) (data : Bytes) : Prop :=
  ∀ a, router ⟨.read, path, []⟩ a → ∃ r, a = .reply (.ok r) ∧ r.data = data

section
variable {F : Set UInt32} {router : Request → Answer → Prop} {A : Call → Option Outcome → Prop}
  {b : Bindings} {fid count : UInt32} {path : String} {data : Bytes}

/-- A read is answered with all the bytes from its offset on. -/
theorem heard_read (hfid : fid ∈ F) (hb : b fid = some (path, false)) (hdata : Holds router path data)
    (hlength : data.length < 2 ^ 32 - 11) {offset : UInt64} {Q : Except Stop Bytes → View → Prop}
    (h : Q (.ok (leBytes 4 (data.drop offset.toNat).length ++ data.drop offset.toNat)) ⟨b, true⟩) :
    wp (heard F router A) (sendRecv (.read fid offset count)).run Q ⟨b, true⟩ := by
  have hsize : (Call.read fid offset count).body.length = 16 := by simp [Call.body]
  refine heard_sendRecv (by omega) (fun _ body b' heffect _ => ?_) (fun e heffect _ => ?_) (by omega)
  · cases heffect with
    | listed chunk hlisted =>
        rw [hb] at hlisted
        cases hlisted hfid
    | @read _ _ _ _ path' r hpath hr =>
        rw [hb] at hpath
        obtain ⟨rfl, _⟩ := Prod.mk.inj (Option.some.inj (hpath hfid))
        obtain ⟨r', hanswer, rfl⟩ := hdata _ hr
        obtain rfl := Except.ok.inj (Answer.reply.inj hanswer)
        refine ⟨?_, h⟩
        rw [List.length_append, leBytes_length, List.length_drop]
        omega
  · cases heffect with
    | unknown _ hsubject hnone =>
        obtain rfl := Option.some.inj hsubject
        rw [hb] at hnone
        cases hnone hfid
    | refused _ hsubject hx hasks ha hrefused =>
        obtain rfl := Option.some.inj hsubject
        rw [hb] at hx
        obtain rfl := Option.some.inj (hx hfid)
        obtain rfl := Option.some.inj hasks
        obtain ⟨r, rfl, _⟩ := hdata _ ha
        cases hrefused

/-- What the client makes of a reply to a read: it goes on behind the chunk, or ends the
loop if the chunk is empty. -/
theorem wp_readRound {T : Type} {spec : Spec wire T} {chunk raw : Bytes}
    (hlength : chunk.length < 2 ^ 32) {fuel : ℕ} {offset : UInt64}
    {Q : Except Stop Bytes → T → Prop} {t : T} (hend : chunk = [] → Q (.ok raw) t)
    (hnext : chunk ≠ [] → wp spec (readLoop fid count fuel
      (offset + UInt64.ofNat chunk.length) (raw ++ chunk)).run Q t) :
    wp spec (do
      let dataLen ← uintFrom 4 (leBytes 4 chunk.length ++ chunk) 0
      if dataLen = 0 then pure raw
      else do
        let part ← part (leBytes 4 chunk.length ++ chunk) 4 (4 + dataLen)
        readLoop fid count fuel (offset + UInt64.ofNat dataLen) (raw ++ part) :
        Operation Bytes).run Q t := by
  have hfour : (leBytes 4 chunk.length).length = 4 := leBytes_length _ _
  have hbody : (leBytes 4 chunk.length ++ chunk).length = 4 + chunk.length := by
    rw [List.length_append, hfour]
  rw [uintFrom_of_le (by omega), pure_bind, uintAt_here 4 _ _ (by omega)]
  split
  · next hzero => exact hend (List.length_eq_zero_iff.mp hzero)
  · next hsome =>
      rw [part_of_le (by omega) (by omega), pure_bind, List.drop_left' hfour, Nat.add_sub_cancel_left,
        List.take_length]
      exact hnext fun hnil => hsome (List.length_eq_zero_iff.mpr hnil)

/-- One round takes all that is left, or ends the loop. -/
theorem heard_readLoop (hfid : fid ∈ F) (hb : b fid = some (path, false))
    (hdata : Holds router path data) (hlength : data.length < 2 ^ 32 - 11) {fuel : ℕ}
    {offset : UInt64} {raw : Bytes} {Q : Except Stop Bytes → View → Prop}
    (hend : data.drop offset.toNat = [] → Q (.ok raw) ⟨b, true⟩)
    (hnext : data.drop offset.toNat ≠ [] → wp (heard F router A) (readLoop fid count fuel
      (offset + UInt64.ofNat (data.drop offset.toNat).length) (raw ++ data.drop offset.toNat)).run
        Q ⟨b, true⟩) :
    wp (heard F router A) (readLoop fid count (fuel + 1) offset raw).run Q ⟨b, true⟩ := by
  have hle : (data.drop offset.toNat).length ≤ data.length := by
    rw [List.length_drop]
    omega
  refine wp_seq (heard_read hfid hb hdata hlength ?_)
  exact wp_readRound (by omega) hend hnext

theorem heard_readAll (hfid : fid ∈ F) (hb : b fid = some (path, false))
    (hdata : Holds router path data) (hlength : data.length < 2 ^ 32 - 11) {fuel : ℕ}
    {Q : Except Stop Bytes → View → Prop} (h : Q (.ok data) ⟨b, true⟩) :
    wp (heard F router A) (readLoop fid count (fuel + 2) 0 []).run Q ⟨b, true⟩ := by
  refine heard_readLoop hfid hb hdata hlength (fun hnil => ?_) fun _ => ?_
  · rw [UInt64.toNat_zero, List.drop_zero] at hnil
    rw [← hnil]
    exact h
  · rw [UInt64.toNat_zero, List.drop_zero, List.nil_append]
    have hrest : data.drop (0 + UInt64.ofNat data.length).toNat = [] := by
      rw [UInt64.zero_add, UInt64.toNat_ofNat', Nat.mod_eq_of_lt (by omega), List.drop_length]
    exact heard_readLoop hfid hb hdata hlength (fun _ => h) fun hsome => absurd hrest hsome

/-- The last name decides whether a walk ends at a directory. -/
theorem walkedDir_last {names : List String} {name : String} (h : names.getLast? = some name)
    (isDir : Bool) : walkedDir names isDir = dotName name := by
  obtain ⟨init, rfl⟩ := List.getLast?_eq_some_iff.mp h
  rw [walkedDir, List.foldl_append]
  rfl

theorem components_ne {path name : String} (h : name ∈ components path) : name ≠ "" := by
  obtain ⟨cs, hcs, rfl⟩ := List.mem_map.mp h
  have hsome := (List.mem_filter.mp hcs).2
  rintro hnil
  rw [String.ofList_eq_empty_iff.mp hnil] at hsome
  cases hsome

theorem heard_readFile (hfid : fid ∈ F) (hone : (1 : UInt32) ∈ F) {root : String} {isDir : Bool}
    (hroot : b 1 = some (root, isDir)) {c : Client} (hc : c.nextFid = fid) {name : String}
    (hlast : (components path).getLast? = some name) (hdot : name ≠ "." ∧ name ≠ "..")
    (hsize : (Call.walk 1 fid (components path)).body.length < 2 ^ 32 - 7)
    (hlength : data.length < 2 ^ 32 - 11)
    (hdata : Holds router ((components path).foldl joinPath root) data) (fuel : ℕ) :
    wp (heard F router Granted) (readFile (fuel + 2) c path).run
      (fun r v => r = .ok (fromUtf8Lossy data) ∧ v.bound fid = none) ⟨b, true⟩ := by
  subst hc
  have hname : dotName name = false := by
    simp [dotName, hdot, components_ne (List.mem_of_getLast? hlast)]
  refine wp_seq (heard_walk hsize (fun x hx => ?_)
    (fun e hA => (granted_failed hA trivial).elim) fun _ hA => (granted_none hA trivial).elim)
  rw [hroot] at hx
  obtain rfl := Option.some.inj (hx hone)
  rw [walkedDir_last hlast, hname]
  refine wp_seq (heard_openFid ?_ fun e hA => (granted_failed hA trivial).elim)
  refine wp_seq (heard_readAll hfid (Function.update_self ..) hdata hlength ?_)
  exact wp_seq (heard_clunk ⟨rfl, Function.update_self ..⟩)

end

/-- The server takes the message whole, and replies to it. -/
def Succeeds (x : Exchange) : Prop :=
  x.call.body.length ≤ 65536 ∧ ∃ body, Ended x.call x.history (.replied body)

theorem Succeeds.replied {x : Exchange} (hx : Succeeds x) {eo : Option Outcome} (heo : Ends x eo) :
    ∃ body, eo = some (.replied body) := by
  obtain ⟨_, body, hbody⟩ := hx
  exact ⟨body, replied_of_ends hbody heo⟩

/-- Either the operation has not sent its walk, or this is the first exchange. -/
theorem first_exchange {B : Type} {c : Call} {next : Except String Bytes → Prog wire B}
    {k : List Exchange} {q : Prog wire B} (hp : Passes (.call c next) (answers k) q) :
    (k = [] ∧ q = .call c next) ∨ ∃ x ∈ k, x.call = c := by
  cases k with
  | nil =>
      cases hp
      exact Or.inl ⟨rfl, rfl⟩
  | cons x k =>
      refine Or.inr ⟨x, List.mem_cons_self .., ?_⟩
      change Passes (.call c next) (⟨x.call, x.result⟩ :: answers k) q at hp
      cases hp
      rfl

/-- A run of the client's `read_file` in which the walk and the open succeed, against a
server whose router answers every read of the file with the same bytes, never gets stuck,
has a bounded number of exchanges, and ends with the text of exactly these bytes and with
its fid released. Other connections may do anything but touch fid 1 and that fid. -/
theorem read_file_exact {router : Request → Answer → Prop} (hrouter : ∀ req, ∃ a, router req a)
    {c : Client} {path root : String} {isDir : Bool} {name : String} {data : Bytes} {fuel : ℕ}
    {ch ch' : Channel} (hlink : ch.link = some Link.new)
    (hroot : bindings ch.shared 1 = some (root, isDir))
    (hlast : (components path).getLast? = some name) (hdot : name ≠ "." ∧ name ≠ "..")
    (hlength : data.length < 2 ^ 32 - 11)
    (hdata : Holds router ((components path).foldl joinPath root) data) (hfuel : 2 ≤ fuel)
    {k : List Exchange} {q : Prog wire (Except Stop String)}
    (hk : Dialogue (amid (Spares {1, c.nextFid}) (semantics router)) ch k ch')
    (hp : Passes (readFile fuel c path).run (answers k) q)
    (hopened : ∀ x ∈ k, Opening x.call → Succeeds x) :
    k.length ≤ fuel + 3 ∧
    (∀ r, q = .done r →
      r = .ok (fromUtf8Lossy data) ∧ bindings ch'.shared c.nextFid = none) ∧
    ∀ m next, q = .call m next → m.body.length < 2 ^ 32 - 7 → ∃ x ch'', x.call = m ∧
      Exchanged (amid (Spares {1, c.nextFid}) (semantics router)) ch' x ch'' := by
  have hcount := hp.length_le (within_readFile fuel c path)
  rw [answers, List.length_map] at hcount
  refine ⟨hcount, ?_⟩
  by_cases hsize : (Call.walk 1 c.nextFid (components path)).body.length < 2 ^ 32 - 7
  · have hseen : Seen {1, c.nextFid} ch ⟨bindings ch.shared, true⟩ := ⟨fun _ _ => rfl, hlink⟩
    have hgranted : ∀ x ∈ k, ∀ eo, Ends x eo → Granted x.call eo :=
      fun x hx eo heo hopening => (hopened x hx hopening).replied heo
    obtain ⟨rounds, rfl⟩ := Nat.exists_eq_add_of_le' hfuel
    have hread := heard_readFile (F := {1, c.nextFid}) (b := bindings ch.shared) (c := c)
      (Set.mem_insert_of_mem _ rfl) (Set.mem_insert ..) hroot rfl hlast hdot hsize hlength hdata
      rounds
    refine ⟨?_, ?_⟩
    · rintro r rfl
      obtain ⟨_, v, hv, hresult, hreleased⟩ := hk.heard hp hseen hgranted hread
      exact ⟨hresult, (hv.bound _ (Set.mem_insert_of_mem _ rfl)).trans hreleased⟩
    · rintro m next rfl _
      exact hk.continues hp hseen hgranted hread hrouter
  · -- the walk has not been sent, as it would not have succeeded
    rcases first_exchange hp with ⟨_, rfl⟩ | ⟨x, hx, hwalk⟩
    · refine ⟨nofun, fun m next hcall hm => ?_⟩
      obtain ⟨rfl, _⟩ := Prog.call.inj hcall
      exact absurd hm hsize
    · obtain ⟨hbody, _⟩ := hopened x hx (by rw [hwalk]; trivial)
      rw [hwalk] at hbody
      omega

/-! ## A file of two bytes -/

/-- Everything is accepted, and every file has the same bytes. -/
def serving (data : Bytes) (req : Request) (a : Answer) : Prop :=
  a = .reply (.ok ⟨if req.op = .read then data else [], none, false⟩)

/-- Fid 1 is the root, and nothing else is bound. -/
def rootAttached (msize : ℕ) : Shared := ⟨NinepState.new.setFid 1 0 "/" true, msize⟩

def fileWalked (msize : ℕ) : Shared :=
  ((Critical.setFid 4 1 "/a" false).exec
    ((Critical.allocQid "/a" false).exec (rootAttached msize)).2).2

def fileOpened : Shared := ((Critical.markOpen 4).exec (fileWalked 8192)).2

def clunking : List (Answered ninep) :=
  [⟨.locked (.getFid 4), some (⟨1, "/a", true, false⟩ : FidEntry)⟩,
    ⟨.route ⟨.release, "/a", []⟩, .reply (.ok ⟨[], none, false⟩)⟩, ⟨.locked (.removeFid 4), ()⟩]

def walkExchange : Exchange :=
  ⟨.walk 1 4 ["a"], walking ++ [⟨.send (message RWALK 0 walkReply), ()⟩], .ok walkReply⟩

def openExchange (mode : UInt8) : Exchange :=
  ⟨.openFid 4 mode, opening ++ [⟨.send (message ROPEN 0 openReply), ()⟩], .ok openReply⟩

def readAt (offset : UInt64) (data : Bytes) : Exchange :=
  ⟨.read 4 offset 8192, reading data ++
    [⟨.send (message RREAD 0 (readBody (data.drop offset.toNat))), ()⟩],
    .ok (readBody (data.drop offset.toNat))⟩

def clunkExchange : Exchange :=
  ⟨.clunk 4, clunking ++ [⟨.send (message RCLUNK 0 []), ()⟩], .ok []⟩

theorem passes_openingFor (mode : UInt8) : Passes ((Call.openFid 4 mode).served 0).run
    (opening ++ [⟨.send (message ROPEN 0 openReply), ()⟩]) (.done (.ok ())) :=
  .answer _ _ _ (.answer _ _ _ (.answer _ _ _ (.answer _ _ _ (.answer _ _ _ (.refl _)))))

theorem passes_readingAt (offset : UInt64) (data : Bytes) :
    Passes ((Call.read 4 offset 8192).served 0).run (reading data ++
      [⟨.send (message RREAD 0 (readBody (data.drop offset.toNat))), ()⟩]) (.done (.ok ())) :=
  .answer _ _ _ (.answer _ _ _ (.answer _ _ _ (.refl _)))

theorem passes_clunking : Passes ((Call.clunk 4).served 0).run
    (clunking ++ [⟨.send (message RCLUNK 0 []), ()⟩]) (.done (.ok ())) :=
  .answer _ _ _ (.answer _ _ _ (.answer _ _ _ (.answer _ _ _ (.refl _))))

section
variable {F : Set UInt32} {data : Bytes}

theorem idle_spares (F : Set UInt32) (s : Shared) : Spares F s s := fun _ _ => rfl

theorem exchanged_walk (msize : ℕ) : Exchanged (amid (Spares F) (semantics (serving data)))
    ⟨rootAttached msize, some Link.new⟩ walkExchange ⟨fileWalked msize, some Link.new⟩ :=
  .served (by decide) passes_walking (silence_of rfl) (by decide) (by decide)
    (Performs.amid (idle_spares F) (.answer _ _ (semantics_exec _ _) (.answer _ _ ⟨rfl, rfl⟩
      (.answer _ _ (semantics_exec _ _) (.answer _ _ (semantics_exec _ _)
      (.answer _ _ rfl (.refl _)))))))

theorem exchanged_open (mode : UInt8) : Exchanged (amid (Spares F) (semantics (serving data)))
    ⟨fileWalked 8192, some Link.new⟩ (openExchange mode) ⟨fileOpened, some Link.new⟩ :=
  .served (by simp [Call.body]) (passes_openingFor mode) (silence_of rfl) (by decide) (by decide)
    (Performs.amid (idle_spares F) (.answer _ _ (semantics_exec _ _) (.answer _ _ ⟨rfl, rfl⟩
      (.answer _ _ (semantics_exec _ _) (.answer _ _ (semantics_exec _ _)
      (.answer _ _ rfl (.refl _)))))))

theorem exchanged_read (offset : UInt64) (hdata : data.length < 2 ^ 32 - 11) :
    Exchanged (amid (Spares F) (semantics (serving data))) ⟨fileOpened, some Link.new⟩
      (readAt offset data) ⟨fileOpened, some Link.new⟩ := by
  have hshort : (readBody (data.drop offset.toNat)).length < 2 ^ 32 - 7 := by
    rw [readBody, List.length_append, leBytes_length, List.length_drop]
    omega
  exact .served (by simp [Call.body]) (passes_readingAt offset data) (silence_of rfl) (by decide)
    hshort (Performs.amid (idle_spares F) (.answer _ _ (semantics_exec _ _)
      (.answer _ _ ⟨rfl, rfl⟩ (.answer _ _ rfl (.refl _)))))

theorem exchanged_clunk : Exchanged (amid (Spares F) (semantics (serving data)))
    ⟨fileOpened, some Link.new⟩ clunkExchange
    ⟨((Critical.removeFid 4).exec fileOpened).2, some Link.new⟩ :=
  .served (by decide) passes_clunking (silence_of rfl) (by decide) (by decide)
    (Performs.amid (idle_spares F) (.answer _ _ (semantics_exec _ _) (.answer _ _ ⟨rfl, rfl⟩
      (.answer _ _ (semantics_exec _ _) (.answer _ _ rfl (.refl _))))))

end

def exchangesHi : List Exchange :=
  [walkExchange, openExchange 0, readAt 0 [104, 105], readAt 2 [104, 105], clunkExchange]

theorem dialogue_hi (F : Set UInt32) : Dialogue (amid (Spares F) (semantics (serving [104, 105])))
    ⟨rootAttached 8192, some Link.new⟩ exchangesHi
    ⟨((Critical.removeFid 4).exec fileOpened).2, some Link.new⟩ := by
  have hread : ∀ offset, Exchanged (amid (Spares F) (semantics (serving [104, 105])))
      ⟨fileOpened, some Link.new⟩ (readAt offset [104, 105]) ⟨fileOpened, some Link.new⟩ :=
    fun offset => exchanged_read offset (by decide)
  exact .exchange (exchanged_walk 8192) (.exchange (exchanged_open 0)
    (.exchange (hread 0) (.exchange (hread 2) (.exchange exchanged_clunk (.refl _)))))

theorem passes_hi : ∃ text, Passes (readFile 2 ⟨8192, 4⟩ "a").run (answers exchangesHi)
    (.done (.ok text)) :=
  ⟨_, .answer _ _ _ (.answer _ _ _ (.answer _ _ _ (.answer _ _ _ (.answer _ _ _ (.refl _)))))⟩

theorem opened_hi : ∀ x ∈ exchangesHi, Opening x.call → Succeeds x := by
  have hwalk := ended_of_served (by decide) passes_walking (silence_of rfl)
  have hopen := ended_of_served (by decide) passes_opening (silence_of rfl)
  simp only [exchangesHi, List.forall_mem_cons]
  exact ⟨fun _ => ⟨by decide, _, hwalk⟩, fun _ => ⟨by decide, _, hopen⟩, nofun, nofun, nofun,
    nofun⟩

/-- The text comes back whole, after five exchanges. -/
theorem read_file_exact_hi : ∃ (k : List Exchange) (ch : Channel) (r : Except Stop String),
    Dialogue (amid (Spares {1, 4}) (semantics (serving [104, 105])))
      ⟨rootAttached 8192, some Link.new⟩ k ch ∧
    Passes (readFile 2 ⟨8192, 4⟩ "a").run (answers k) (.done r) ∧ k.length ≤ 5 ∧
    r = .ok "hi" ∧ bindings ch.shared 4 = none := by
  obtain ⟨text, hp⟩ := passes_hi
  have hrouter : ∀ req, ∃ a, serving [104, 105] req a := fun _ => ⟨_, rfl⟩
  have hdata : Holds (serving [104, 105]) ((components "a").foldl joinPath "/") [104, 105] := by
    rintro a rfl
    exact ⟨_, rfl, rfl⟩
  have hlast : (components "a").getLast? = some "a" := by decide
  have htext : fromUtf8Lossy [104, 105] = "hi" := by decide
  have hroot : bindings (rootAttached 8192) 1 = some ("/", true) := rfl
  obtain ⟨hcount, hresult, _⟩ := read_file_exact hrouter rfl hroot hlast (by decide)
    (by decide) hdata le_rfl (dialogue_hi _) hp opened_hi
  obtain ⟨hr, hreleased⟩ := hresult _ rfl
  rw [htext] at hr
  exact ⟨_, _, _, dialogue_hi _, hp, hcount, hr, hreleased⟩

end Pinhead.ClientReads
