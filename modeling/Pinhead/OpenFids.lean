import Pinhead.QidReports

/-!
# Fids that are read and written without being open

The entry of a fid has a flag that an accepted open or create sets and every new
binding clears. Reads and writes look the entry up and send their request whatever
the flag says.

The flag itself is right. In every interleaving it is set exactly when the fid was
opened since it was last bound, and each step that sets it follows the acceptance of
the request it stands for. What is read or written without an open is therefore read
or written through an entry whose flag is not set, and nothing else is.
-/
namespace Pinhead.OpenFids
open FiniteTables ByteStrings FsRequests Resumption Histories NinepShared NinepHandlers
open NinepRuns NinepTotality NinepDatagrams NinepScripts QidReports

/-! ## Opened since it was bound -/

def Binds (f : UInt32) : Op → Prop
  | .locked (.attach g) | .locked (.setFid g _ _ _) => g = f
  | _ => False

/-- The steps that record the success of an open or a create. -/
def Opens (f : UInt32) : Op → Prop
  | .locked (.markOpen g) | .locked (.createFid g _ _) => g = f
  | _ => False

def IsOpening (op : FsOperation) : Prop :=
  op = .openFile ∨ op = .openDir ∨ op = .create ∨ op = .mkDir

def IsIo (op : FsOperation) : Prop := op = .read ∨ op = .readDir ∨ op = .write

section
variable {ι : Type}

/-- The last thing that connection `i` did was to have an open or a create accepted. -/
def JustAccepted (i : ι) (t : List (Event ninep ι)) : Prop :=
  ∃ t₁ req a t₂, t = t₁ ++ ⟨i, .route req, a⟩ :: t₂ ∧ (∀ e ∈ t₂, e.task ≠ i) ∧
    Answer.accepted a = true ∧ IsOpening req.op

/-- The fid was opened, and has not been bound again since. -/
def OpenedSince (f : UInt32) (t : List (Event ninep ι)) : Prop :=
  ∃ t₁ ev t₂, t = t₁ ++ ev :: t₂ ∧ Opens f ev.op ∧ JustAccepted ev.task t₁ ∧
    ∀ e ∈ t₂, ¬ Binds f e.op

/-- After `before`, a connection looked the fid up as `e` and with that sent a request
to read or to write. -/
def Access (t before : List (Event ninep ι)) (f : UInt32) (e : FidEntry) : Prop :=
  ∃ i between req a after, t = before ++ ⟨i, .locked (.getFid f), some e⟩ ::
    (between ++ ⟨i, .route req, a⟩ :: after) ∧ (∀ ev ∈ between, ev.task ≠ i) ∧ IsIo req.op

end

/-! ## The flag -/

/-- Whether the fid counts as opened after one more operation. -/
def noteOpen (f : UInt32) (b : Bool) : Op → Bool
  | .locked (.attach g) | .locked (.setFid g _ _ _) => if g = f then false else b
  | .locked (.markOpen g) | .locked (.createFid g _ _) => if g = f then true else b
  | _ => b

section
variable {ι : Type}

def lately (f : UInt32) (t : List (Event ninep ι)) : Bool :=
  t.foldl (fun b e => noteOpen f b e.op) false

theorem lately_concat (f : UInt32) (t : List (Event ninep ι)) (e : Event ninep ι) :
    lately f (t ++ [e]) = noteOpen f (lately f t) e.op := by
  rw [lately, List.foldl_append]
  rfl

theorem noteOpen_cases (f : UInt32) (b : Bool) (o : Op) :
    (Opens f o ∧ noteOpen f b o = true) ∨ (Binds f o ∧ noteOpen f b o = false) ∨
    (¬ Opens f o ∧ ¬ Binds f o ∧ noteOpen f b o = b) := by
  cases o with
  | locked c =>
      cases c with
      | attach g | setFid g _ _ _ =>
          by_cases hg : g = f
          · exact Or.inr (Or.inl ⟨hg, if_pos hg⟩)
          · exact Or.inr (Or.inr ⟨not_false, hg, if_neg hg⟩)
      | markOpen g | createFid g _ _ =>
          by_cases hg : g = f
          · exact Or.inl ⟨hg, if_pos hg⟩
          · exact Or.inr (Or.inr ⟨hg, not_false, if_neg hg⟩)
      | _ => exact Or.inr (Or.inr ⟨not_false, not_false, rfl⟩)
  | _ => exact Or.inr (Or.inr ⟨not_false, not_false, rfl⟩)

theorem not_binds_of_opens {f : UInt32} {o : Op} (h : Opens f o) : ¬ Binds f o := by
  cases o with
  | locked c => cases c <;> first | exact not_false | exact h.elim
  | _ => exact h.elim

/-- The ghost flag says what the trace says. -/
theorem lately_iff (f : UInt32) (t : List (Event ninep ι)) : lately f t = true ↔
    ∃ t₁ ev t₂, t = t₁ ++ ev :: t₂ ∧ Opens f ev.op ∧ ∀ e ∈ t₂, ¬ Binds f e.op := by
  induction t using List.reverseRecOn with
  | nil =>
      constructor
      · nofun
      · rintro ⟨t₁, ev, t₂, hnil, _⟩
        simp at hnil
  | append_singleton t e ih =>
      rw [lately_concat]
      constructor
      · intro h
        rcases noteOpen_cases f (lately f t) e.op with ⟨hopen, _⟩ | ⟨_, hfalse⟩ | ⟨_, hbind, hkeep⟩
        · exact ⟨t, e, [], rfl, hopen, nofun⟩
        · rw [hfalse] at h
          cases h
        · rw [hkeep] at h
          obtain ⟨t₁, ev, t₂, rfl, hopen, hrest⟩ := ih.mp h
          refine ⟨t₁, ev, t₂ ++ [e], by simp, hopen, ?_⟩
          intro e' he'
          rcases List.mem_append.mp he' with he' | he'
          · exact hrest e' he'
          · rw [List.mem_singleton.mp he']
            exact hbind
      · rintro ⟨t₁, ev, t₂, heq, hopen, hrest⟩
        rcases List.eq_nil_or_concat t₂ with rfl | ⟨t₃, last, rfl⟩
        · obtain ⟨rfl, hlast⟩ := List.append_inj' heq rfl
          obtain rfl := List.singleton_inj.mp hlast
          rcases noteOpen_cases f (lately f t) e.op with ⟨_, htrue⟩ | ⟨hbind, _⟩ | ⟨hnot, _⟩
          · exact htrue
          · exact absurd hbind (not_binds_of_opens hopen)
          · exact absurd hopen hnot
        · rw [List.concat_eq_append, ← List.cons_append, ← List.append_assoc] at heq
          obtain ⟨rfl, hlast⟩ := List.append_inj' heq rfl
          obtain rfl := List.singleton_inj.mp hlast
          have hlately := ih.mpr ⟨t₁, ev, t₃, rfl, hopen, fun e' he' => hrest e' (by simp [he'])⟩
          rcases noteOpen_cases f (lately f (t₁ ++ ev :: t₃)) e.op with
            ⟨_, htrue⟩ | ⟨hbind, _⟩ | ⟨_, _, hkeep⟩
          · exact htrue
          · exact absurd hbind (hrest e (by simp))
          · rw [hkeep]
            exact hlately

/-- Every entry has its flag set exactly when its fid was opened lately. -/
def Flags (t : List (Event ninep ι)) (s : Shared) : Prop :=
  ∀ f e, s.state.fids.lookup f = some e → e.isOpen = lately f t

/-- Each critical section keeps the flags in step with the trace. -/
theorem exec_isOpen {b : UInt32 → Bool} {s : Shared} (c : Critical)
    (h : ∀ f e, s.state.fids.lookup f = some e → e.isOpen = b f) (f : UInt32) (e : FidEntry)
    (he : (c.exec s).2.state.fids.lookup f = some e) :
    e.isOpen = noteOpen f (b f) (.locked c) := by
  cases c with
  | attach g | setFid g _ _ _ =>
      rcases (lookup_insert_iff ..).mp he with ⟨rfl, rfl⟩ | ⟨hne, hold⟩
      · exact (if_pos rfl).symm
      · rw [noteOpen, if_neg (Ne.symm hne)]
        exact h f e hold
  | markOpen g =>
      simp only [Critical.exec, lookup_modifyFid] at he
      split at he
      · next heq =>
          obtain ⟨_, _, rfl⟩ := Option.map_eq_some_iff.mp he
          rw [noteOpen, if_pos heq.symm]
      · next hne =>
          rw [noteOpen, if_neg (Ne.symm hne)]
          exact h f e he
  | createFid g path isDir =>
      simp only [Critical.exec, lookup_modifyFid] at he
      split at he
      · next heq =>
          obtain ⟨_, _, rfl⟩ := Option.map_eq_some_iff.mp he
          rw [noteOpen, if_pos heq.symm]
      · next hne =>
          rw [noteOpen, if_neg (Ne.symm hne)]
          apply h f e
          rw [← allocQid_fids s.state path isDir]
          rwa [NinepState.setFid, AList.lookup_insert_ne hne] at he
  | allocQid path isDir =>
      apply h f e
      rw [← allocQid_fids s.state path isDir]
      exact he
  | removeFid g => exact h f e ((lookup_erase_iff _ _ _ _).mp he).2
  | renameFid g qid q =>
      simp only [Critical.exec, lookup_modifyFid] at he
      split at he
      · obtain ⟨e₀, he₀, rfl⟩ := Option.map_eq_some_iff.mp he
        exact h f e₀ he₀
      · exact h f e he
  | getFid _ | listDir _ | readMsize | writeMsize _ => exact h f e he

end

section
variable {ι : Type} [DecidableEq ι] {router : Request → Answer → Prop}

theorem Flags.step {t : List (Event ninep ι)} {c d : Config ninep ι Shared} {ev : Event ninep ι}
    (h : Flags t c.state) (hs : Step (semantics router) c ev d) : Flags (t ++ [ev]) d.state := by
  obtain ⟨i, o, next, r, s, _, hsem⟩ := hs
  intro f e he
  rw [lately_concat]
  cases o with
  | locked k =>
      obtain ⟨u, hre, hexec⟩ := hsem
      apply exec_isOpen (s := u) k (b := fun f => lately f t)
      · intro g e' he'
        exact h g e' (by rw [← hre.lookup_fids]; exact he')
      · rw [hexec]
        exact he
  | route req =>
      obtain rfl := hsem.2
      exact h f e he
  | now | send _ =>
      obtain rfl := hsem
      exact h f e he
  | crash => exact hsem.elim

theorem Flags.run {t u : List (Event ninep ι)} {c d : Config ninep ι Shared}
    (h : Flags t c.state) (run : Run (semantics router) c u d) : Flags (t ++ u) d.state := by
  induction run generalizing t with
  | refl c =>
      rw [List.append_nil]
      exact h
  | step hs _ ih =>
      have hrest := ih (h.step hs)
      rw [List.append_assoc, List.singleton_append] at hrest
      exact hrest

theorem flags_of_run {msgs : ι → List Message} {t : List (Event ninep ι)}
    {c : Config ninep ι Shared} (run : Run (semantics router) (listener msgs) t c) :
    Flags t c.state := by
  have hnew : Flags ([] : List (Event ninep ι)) Shared.new := by
    intro f e he
    simp [Shared.new, NinepState.new] at he
  exact hnew.run run

/-- What a look-up shows of the flag is what the trace before it says. -/
theorem isOpen_of_lookup {msgs : ι → List Message} {before after : List (Event ninep ι)} {i : ι}
    {f : UInt32} {e : FidEntry} {c : Config ninep ι Shared}
    (run : Run (semantics router) (listener msgs)
      (before ++ ⟨i, .locked (.getFid f), some e⟩ :: after) c) :
    e.isOpen = lately f before := by
  obtain ⟨d, hbefore, hafter⟩ := run.of_append
  cases hafter with
  | step hs _ =>
      cases hs with
      | answer i o next r s _ hsem =>
          obtain ⟨u, hre, hexec⟩ := hsem
          have hlook : u.state.fids.lookup f = some e := congrArg Prod.fst hexec
          rw [hre.lookup_fids] at hlook
          exact flags_of_run hbefore f e hlook

end

/-! ## What precedes an opening and an access -/

/-- An opening step directly follows the acceptance of its request, and a request to
read or write directly follows the look-up of the fid in a Tread or Twrite. -/
def Owes (m : Message) (last : Option (Answered ninep)) : Op → Prop
  | .locked (.markOpen _) | .locked (.createFid _ _ _) => ∃ req a, last = some ⟨.route req, a⟩ ∧
      Answer.accepted a = true ∧ IsOpening req.op
  | .route req => IsIo req.op → (m.ty = TREAD ∨ m.ty = TWRITE) ∧
      ∃ e : FidEntry, last = some ⟨.locked (.getFid (fidAt m.body 0)), some e⟩
  | _ => True

abbrev latest (m : Message) : Spec ninep (Option (Answered ninep)) :=
  observed (fun _ e => some e) (fun _ _ => True) (Owes m)

/-- Neither an opening nor an access. -/
def Calm : Op → Prop
  | .locked (.markOpen _) | .locked (.createFid _ _ _) => False
  | .route req => ¬ IsIo req.op
  | _ => True

theorem Calm.owes {o : Op} (h : Calm o) (m : Message) (last : Option (Answered ninep)) :
    Owes m last o := by
  cases o with
  | locked c =>
      cases c with
      | markOpen _ | createFid _ _ _ => exact h.elim
      | _ => trivial
  | route req => exact fun hio => absurd hio h
  | _ => trivial

def Quiet {A : Type} (x : Handler A) : Prop := Confined Calm (fun _ => True) x.run

section
variable {A B : Type}

theorem confined_latest (m : Message) {p : Prog ninep A} (h : Confined Calm (fun _ => True) p)
    (last : Option (Answered ninep)) : wp (latest m) p (fun _ _ => True) last := by
  induction p generalizing last with
  | done a => trivial
  | call o next ih => exact ⟨h.1.owes m last, fun r _ => ih r (h.2 r) _⟩

theorem Quiet.bind {x : Handler A} {f : A → Handler B} (hx : Quiet x) (hf : ∀ a, Quiet (f a)) :
    Quiet (x >>= f) := by
  unfold Quiet
  rw [ExceptT.run_bind]
  refine Confined.bind hx ?_
  intro r _
  cases r with
  | ok a => exact hf a
  | error e => trivial

theorem quiet_throw (e : String) : Quiet (throw e : Handler A) := trivial

theorem quiet_crash : Quiet (crash : Handler A) := ⟨trivial, fun r => Empty.elim r⟩

theorem quiet_locked {c : Critical} (h : Calm (.locked c)) : Quiet (locked c) :=
  ⟨h, fun _ => trivial⟩

theorem quiet_getFid (fid : UInt32) : Quiet (getFid fid) := by
  refine (quiet_locked (c := .getFid fid) trivial).bind ?_
  intro r
  cases r with
  | none => exact quiet_throw _
  | some e => trivial

theorem quiet_request {what : String} {op : FsOperation} {path : String} {data : Bytes}
    (h : ¬ IsIo op) : Quiet (request what op path data) := by
  refine ⟨h, ?_⟩
  intro a
  match a with
  | .routerGone => trivial
  | .handlerGone => trivial
  | .reply (.error e) => trivial
  | .reply (.ok r) => trivial

theorem quiet_send (ty : UInt8) (tag : UInt16) (body : Bytes) : Quiet (sendReply ty tag body) :=
  ⟨trivial, fun _ => trivial⟩

theorem quiet_encodeStat (name : String) (qid : Qid) (length : ℕ) (isDir : Bool) :
    Quiet (encodeStat name qid length isDir) := ⟨trivial, fun _ => trivial⟩

theorem quiet_encodeEntries (es : List DirEntry) : Quiet (encodeEntries es) := by
  induction es with
  | nil => trivial
  | cons e es ih => exact (quiet_encodeStat _ _ _ _).bind fun _ => ih.bind fun _ => trivial

theorem quiet_withDot (offset : ℕ) (data : Bytes) : Quiet (withDot offset data) := by
  unfold withDot
  split
  · exact (quiet_encodeStat _ _ _ _).bind fun _ => trivial
  · trivial

theorem quiet_lookupLast (isLast : Bool) (path : String) : Quiet (lookupLast isLast path) := by
  unfold lookupLast
  split
  · exact (quiet_request (by simp [IsIo])).bind fun _ => trivial
  · trivial

theorem quiet_walkNames (body : Bytes) (left : ℕ) (w : Walk) : Quiet (walkNames body left w) := by
  induction left generalizing w with
  | zero => trivial
  | succ left ih =>
      rw [walkNames_succ]
      split
      · exact quiet_throw _
      · split
        · exact quiet_throw _
        · refine (quiet_lookupLast _ _).bind fun _ => ?_
          exact (quiet_locked (c := .allocQid _ _) trivial).bind fun _ => ih _

theorem quiet_releaseFid (entry : Option FidEntry) : Quiet (releaseFid entry) := by
  cases entry with
  | none => trivial
  | some e => exact ⟨by simp [Calm, IsIo], fun _ => trivial⟩

theorem quiet_wstatScript (fid : UInt32) (e : FidEntry) (stat : Bytes) :
    Quiet (wstatScript fid e stat) := by
  unfold wstatScript
  split
  · refine (quiet_request (by simp [IsIo])).bind fun _ => ?_
    exact quiet_locked (c := .renameFid _ _ _) trivial
  · split
    · exact (quiet_request (by simp [IsIo])).bind fun _ => trivial
    · trivial

end

/-! ## One message -/

section
variable (tag : UInt16) (body : Bytes)

theorem quiet_handleVersion : Quiet (handleVersion tag body) := by
  rw [handleVersion_eq]
  split
  · exact quiet_throw _
  · split
    · exact quiet_crash
    · exact (quiet_locked (c := .writeMsize _) trivial).bind fun _ => quiet_send _ _ _

theorem quiet_handleAttach : Quiet (handleAttach tag body) := by
  rw [handleAttach_eq]
  split
  · exact quiet_throw _
  · exact (quiet_locked (c := .attach _) trivial).bind fun _ => quiet_send _ _ _

theorem quiet_handleWalk : Quiet (handleWalk tag body) := by
  rw [handleWalk_eq]
  split
  · exact quiet_throw _
  · split
    · exact quiet_crash
    · refine (quiet_getFid _).bind fun parent => (quiet_walkNames body _ _).bind fun w => ?_
      exact (quiet_locked (c := .setFid _ _ _ _) trivial).bind fun _ => quiet_send _ _ _

theorem quiet_handleClunk : Quiet (handleClunk tag body) := by
  rw [handleClunk_eq]
  split
  · exact quiet_throw _
  · refine (quiet_locked (c := .getFid _) trivial).bind fun entry => ?_
    refine (quiet_releaseFid entry).bind fun _ => ?_
    exact (quiet_locked (c := .removeFid _) trivial).bind fun _ => quiet_send _ _ _

theorem quiet_handleRemove : Quiet (handleRemove tag body) := by
  rw [handleRemove_eq]
  split
  · exact quiet_throw _
  · refine (quiet_getFid _).bind fun entry => ?_
    exact (quiet_request (by split <;> simp [IsIo])).bind fun _ => quiet_send _ _ _

theorem quiet_handleStat : Quiet (handleStat tag body) := by
  rw [handleStat_eq]
  split
  · exact quiet_throw _
  · refine (quiet_getFid _).bind fun entry => (quiet_request (by simp [IsIo])).bind fun resp => ?_
    exact (quiet_encodeStat _ _ _ _).bind fun stat => quiet_send _ _ _

theorem quiet_handleWstat : Quiet (handleWstat tag body) := by
  rw [handleWstat_eq]
  split
  · exact quiet_throw _
  · refine (quiet_getFid _).bind fun entry => ?_
    split
    · exact quiet_throw _
    · split
      · exact quiet_send _ _ _
      · exact (quiet_wstatScript _ entry _).bind fun _ => quiet_send _ _ _

end

/-- A message keeps what it owes, wherever it starts. -/
def Pays (m : Message) {A : Type} (Pre : Option (Answered ninep) → Prop) (x : Handler A) : Prop :=
  Meets (latest m) Pre x fun _ _ => True

section
variable {m : Message} {A B : Type} {Pre : Option (Answered ninep) → Prop}

theorem Quiet.pays {x : Handler A} (h : Quiet x) : Pays m Pre x := by
  intro last _
  refine wp_mono (observed_monotone _ _ _) _ ?_ last (confined_latest m h last)
  intro r t _
  cases r <;> trivial

/-- Behind a look-up that found its entry, that look-up is the last operation. -/
theorem pays_getFid {fid : UInt32} {f : FidEntry → Handler B}
    (hf : ∀ e : FidEntry, Pays m (· = some ⟨.locked (.getFid fid), some e⟩) (f e)) :
    Pays m Pre (getFid fid >>= f) := by
  refine fun last _ => ⟨trivial, fun r _ => ?_⟩
  match r with
  | none => trivial
  | some e => exact hf e _ rfl

/-- Behind a request that went through, it is the last operation and was accepted. -/
theorem pays_request {what : String} {op : FsOperation} {path : String} {data : Bytes}
    {f : Response → Handler B} (hop : ∀ last, Pre last → Owes m last (.route ⟨op, path, data⟩))
    (hf : ∀ r, Pays m (· = some ⟨.route ⟨op, path, data⟩, Answer.reply (.ok r)⟩) (f r)) :
    Pays m Pre (request what op path data >>= f) := by
  refine fun last hlast => ⟨hop last hlast, fun a _ => ?_⟩
  match a with
  | .routerGone => trivial
  | .handlerGone => trivial
  | .reply (.error e) => trivial
  | .reply (.ok r) => exact hf r _ rfl

theorem pays_opening {c : Critical} {f : c.Ret → Handler B} {req : Request} {r : Response}
    (hop : IsOpening req.op) (hf : ∀ a, Quiet (f a)) :
    Pays m (· = some ⟨.route req, Answer.reply (.ok r)⟩) (locked c >>= f) := by
  rintro last rfl
  have hpays (a : c.Ret) : Pays m (fun _ => True) (f a) := (hf a).pays
  refine ⟨?_, fun a _ => hpays a _ trivial⟩
  cases c with
  | markOpen g | createFid g path isDir => exact ⟨req, _, rfl, rfl, hop⟩
  | _ => trivial

end

theorem pays_handleOpen (tag : UInt16) (m : Message) :
    Pays m (fun _ => True) (handleOpen tag m.body) := by
  rw [handleOpen_eq]
  split
  · exact (quiet_throw _).pays
  · refine pays_getFid fun e => pays_request ?_ fun r => ?_
    · intro last _ hio
      split at hio <;> simp [IsIo] at hio
    · refine pays_opening ?_ fun _ => ?_
      · split <;> simp [IsOpening]
      · exact (quiet_locked (c := .readMsize) trivial).bind fun _ => quiet_send _ _ _

theorem pays_handleCreate (tag : UInt16) (m : Message) :
    Pays m (fun _ => True) (handleCreate tag m.body) := by
  rw [handleCreate_eq]
  split
  · exact (quiet_throw _).pays
  · split
    · exact (quiet_throw _).pays
    · refine pays_getFid fun e => pays_request ?_ fun r => ?_
      · intro last _ hio
        split at hio <;> simp [IsIo] at hio
      · refine pays_opening ?_ fun _ => quiet_send _ _ _
        split <;> simp [IsOpening]

theorem pays_handleRead (tag : UInt16) (m : Message) (hm : m.ty = TREAD) :
    Pays m (fun _ => True) (handleRead tag m.body) := by
  rw [handleRead_eq]
  split
  · exact (quiet_throw _).pays
  · refine pays_getFid fun e => ?_
    split
    · refine pays_request (fun last hlast _ => ⟨Or.inl hm, e, hlast⟩) fun r => Quiet.pays ?_
      refine (quiet_locked (c := .listDir _) trivial).bind fun es => ?_
      refine (quiet_encodeEntries es).bind fun listing => ?_
      exact (quiet_withDot _ listing).bind fun data => quiet_send _ _ _
    · refine pays_request (fun last hlast _ => ⟨Or.inl hm, e, hlast⟩) fun r => Quiet.pays ?_
      exact quiet_send _ _ _

theorem pays_handleWrite (tag : UInt16) (m : Message) (hm : m.ty = TWRITE) :
    Pays m (fun _ => True) (handleWrite tag m.body) := by
  rw [handleWrite_eq]
  split
  · exact (quiet_throw _).pays
  · refine pays_getFid fun e => ?_
    refine pays_request (fun last hlast _ => ⟨Or.inr hm, e, hlast⟩) fun r => Quiet.pays ?_
    exact quiet_send _ _ _

theorem pays_handleMessage (m : Message) : Pays m (fun _ => True) (handleMessage m) := by
  unfold handleMessage
  split
  · exact (quiet_handleVersion _ _).pays
  · exact (quiet_handleAttach _ _).pays
  · exact (quiet_handleWalk _ _).pays
  · exact pays_handleOpen _ m
  · next hty => exact pays_handleRead _ m hty
  · next hty => exact pays_handleWrite _ m hty
  · exact (quiet_handleClunk _ _).pays
  · exact pays_handleCreate _ m
  · exact (quiet_handleRemove _ _).pays
  · exact (quiet_handleStat _ _).pays
  · exact (quiet_handleWstat _ _).pays
  · exact (quiet_send _ _ _).pays
  · exact (quiet_throw _).pays

theorem pays_serveMessage (m : Message) (last : Option (Answered ninep)) :
    wp (latest m) (serveMessage m) (fun _ _ => True) last := by
  unfold serveMessage
  rw [wp_bind]
  refine wp_mono (observed_monotone _ _ _) _ ?_ _ (pays_handleMessage m last trivial)
  intro r t _
  cases r with
  | ok _ => trivial
  | error e => exact ⟨trivial, fun _ _ => trivial⟩

/-! ## Whole runs -/

section
variable {ι : Type} [DecidableEq ι] {router : Request → Answer → Prop}
  {msgs : ι → List Message} {c : Config ninep ι Shared}

/-- Every operation of a run keeps what its message owes after the operation that its
own connection performed last. -/
theorem owes_of_run {t₁ t₂ : List (Event ninep ι)} {ev : Event ninep ι}
    (run : Run (semantics router) (listener msgs) (t₁ ++ ev :: t₂) c) :
    ∃ m ∈ msgs ev.task, ∃ last, Owes m last ev.op ∧
      ∀ a, last = some a → (own ev.task t₁).getLast? = some a := by
  have hpasses := run_passes run ev.task
  rw [own_append, own_cons_self] at hpasses
  obtain ⟨before, m, after, h₀, h₁, h₂, h₃, q, hms, hown, _, _, hm⟩ := passes_serveAll hpasses
  have howes := hm.guaranteed (fun _ _ => trivial) (pays_serveMessage m none)
  rw [foldl_latest] at howes
  refine ⟨m, ?_, h₁.getLast?, howes, ?_⟩
  · change msgs ev.task = _ at hms
    rw [hms]
    simp
  · intro a ha
    rw [hown, List.getLast?_append, ha, Option.some_or]

/-- What marks a fid as open follows an acceptance. -/
theorem justAccepted_of_opens {t₁ t₂ : List (Event ninep ι)} {ev : Event ninep ι} {f : UInt32}
    (run : Run (semantics router) (listener msgs) (t₁ ++ ev :: t₂) c) (h : Opens f ev.op) :
    JustAccepted ev.task t₁ := by
  obtain ⟨m, _, last, howes, hlast⟩ := owes_of_run run
  have hroute : ∃ req a, last = some ⟨.route req, a⟩ ∧ Answer.accepted a = true ∧
      IsOpening req.op := by
    cases hop : ev.op with
    | locked k =>
        rw [hop] at h howes
        cases k with
        | markOpen g | createFid g path isDir => exact howes
        | _ => exact h.elim
    | _ =>
        rw [hop] at h
        exact h.elim
  obtain ⟨req, a, rfl, haccepted, hop⟩ := hroute
  obtain ⟨t₁', t₂', rfl, hother⟩ := own_last (hlast _ rfl)
  exact ⟨t₁', req, a, t₂', rfl, hother, haccepted, hop⟩

/-- A request to read or write follows the look-up of the fid of a Tread or Twrite. -/
theorem access_of_io {t₁ t₂ : List (Event ninep ι)} {i : ι} {req : Request} {a : Answer}
    (run : Run (semantics router) (listener msgs) (t₁ ++ ⟨i, .route req, a⟩ :: t₂) c)
    (h : IsIo req.op) :
    ∃ m ∈ msgs i, (m.ty = TREAD ∨ m.ty = TWRITE) ∧ ∃ before between, ∃ e : FidEntry,
      t₁ = before ++ ⟨i, .locked (.getFid (fidAt m.body 0)), some e⟩ :: between ∧
      ∀ ev ∈ between, ev.task ≠ i := by
  obtain ⟨m, hm, last, howes, hlast⟩ := owes_of_run run
  obtain ⟨hty, e, rfl⟩ := howes h
  obtain ⟨before, between, rfl, hother⟩ := own_last (hlast _ rfl)
  exact ⟨m, hm, hty, before, between, e, rfl, hother⟩

/-- The flag that a look-up shows is the history of the fid. -/
theorem openedSince_iff {before after : List (Event ninep ι)} {i : ι} {f : UInt32} {e : FidEntry}
    (run : Run (semantics router) (listener msgs)
      (before ++ ⟨i, .locked (.getFid f), some e⟩ :: after) c) :
    OpenedSince f before ↔ e.isOpen = true := by
  rw [isOpen_of_lookup run, lately_iff]
  constructor
  · rintro ⟨t₁, ev, t₂, rfl, hopens, _, hkept⟩
    exact ⟨t₁, ev, t₂, rfl, hopens, hkept⟩
  · rintro ⟨t₁, ev, t₂, rfl, hopens, hkept⟩
    rw [List.append_assoc, List.cons_append] at run
    exact ⟨t₁, ev, t₂, rfl, hopens, justAccepted_of_opens run hopens, hkept⟩

end

/-- Every request to read or write belongs to a Tread or Twrite, which looked its fid up
just before. Such requests are sent only for opened fids exactly in the runs in which
all these look-ups show an entry whose flag is set. -/
theorem io_only_after_open_iff {ι : Type} [DecidableEq ι] (msgs : ι → List Message)
    (t : List (Event ninep ι)) (c : Config ninep ι Shared)
    (run : Run (semantics fun _ _ => True) (listener msgs) t c) :
    (∀ t₁ i req a t₂, t = t₁ ++ ⟨i, .route req, a⟩ :: t₂ → IsIo req.op →
      ∃ m ∈ msgs i, (m.ty = TREAD ∨ m.ty = TWRITE) ∧ ∃ before between, ∃ e : FidEntry,
        t₁ = before ++ ⟨i, .locked (.getFid (fidAt m.body 0)), some e⟩ :: between ∧
        ∀ ev ∈ between, ev.task ≠ i) ∧
    ((∀ before f e, Access t before f e → OpenedSince f before) ↔
      ∀ before f e, Access t before f e → e.isOpen = true) := by
  have hflag : ∀ before f e, Access t before f e → (OpenedSince f before ↔ e.isOpen = true) := by
    rintro before f e ⟨i, between, req, a, after, rfl, _, _⟩
    exact openedSince_iff run
  constructor
  · rintro t₁ i req a t₂ rfl hio
    exact access_of_io run hio
  · constructor
    · intro h before f e haccess
      exact (hflag before f e haccess).mp (h before f e haccess)
    · intro h before f e haccess
      exact (hflag before f e haccess).mpr (h before f e haccess)

/-! ## The root, read with and without an open -/

def openRoot : Message := ⟨TOPEN, 1, [0, 0, 0, 0, 0]⟩

def readRoot : Message := ⟨TREAD, 1, [0, 0, 0, 0, 0, 0, 0, 0, 0, 0, 0, 0, 0, 1, 0, 0]⟩

def openedRoot : List (Answered ninep) :=
  [⟨.locked (.getFid 0), some (⟨0, "/", false, true⟩ : FidEntry)⟩,
    ⟨.route ⟨.openDir, "/", []⟩, accept⟩, ⟨.locked (.markOpen 0), ()⟩,
    ⟨.locked .readMsize, (8192 : ℕ)⟩,
    ⟨.send (message ROPEN 1 (encodeQid ⟨0, 0, 0⟩ ++ leBytes 4 8192)), ()⟩]

/-- The start of a read, up to its request. -/
def readingRoot (isOpen : Bool) : List (Answered ninep) :=
  [⟨.locked (.getFid 0), some (⟨0, "/", isOpen, true⟩ : FidEntry)⟩,
    ⟨.route ⟨.readDir, "/", []⟩, accept⟩]

theorem passes_openedRoot : Passes (serveMessage openRoot) openedRoot (.done ()) :=
  .answer _ _ _ (.answer _ _ _ (.answer _ _ _ (.answer _ _ _ (.answer _ _ _ (.refl _)))))

theorem passes_readingRoot (isOpen : Bool) :
    ∃ q, Passes (serveAll [readRoot]) (readingRoot isOpen) q :=
  ⟨_, .answer _ _ _ (.answer _ _ _ (.refl _))⟩

theorem io_only_after_open_iff_opened : ∃ t c,
    Run (semantics fun _ _ => True) (listener fun _ : Unit => [attachAs 0, openRoot, readRoot]) t c ∧
    (∃ before f e, Access t before f e) ∧ ∀ before f e, Access t before f e → OpenedSince f before := by
  obtain ⟨q, hread⟩ := passes_readingRoot true
  have hall : Passes (serveAll [attachAs 0, openRoot, readRoot])
      (attached 0 ++ (openedRoot ++ readingRoot true)) q :=
    Passes.bind (passes_attach 0 (Or.inl rfl)) (Passes.bind passes_openedRoot hread)
  have hstates : ∃ s, Performs (semantics fun _ _ => True) Shared.new
      (attached 0 ++ (openedRoot ++ readingRoot true)) s :=
    ⟨_, .answer _ _ (semantics_exec _ _) (.answer _ _ rfl
      (.answer _ _ (semantics_exec _ _) (.answer _ _ ⟨trivial, rfl⟩
      (.answer _ _ (semantics_exec _ _) (.answer _ _ (semantics_exec _ _) (.answer _ _ rfl
      (.answer _ _ (semantics_exec _ _) (.answer _ _ ⟨trivial, rfl⟩ (.refl _)))))))))⟩
  obtain ⟨s, hstates⟩ := hstates
  have run : Run (semantics fun _ _ => True)
      (listener fun _ : Unit => [attachAs 0, openRoot, readRoot]) _ _ := hall.run () hstates rfl
  refine ⟨_, _, run, ?_, ?_⟩
  · exact ⟨alone () (attached 0 ++ openedRoot), 0, _, (), [], _, _, [], rfl, nofun, Or.inr (Or.inl rfl)⟩
  · refine (io_only_after_open_iff _ _ _ run).2.mpr ?_
    rintro before f e ⟨i, between, req, a, after, htrace, hbetween, hio⟩
    cases between with
    | cons ev _ => exact absurd rfl (hbetween ev (List.mem_cons_self ..))
    | nil =>
        have hlook := congrArg (·[before.length]?) htrace
        have hreq := congrArg (·[before.length + 1]?) htrace
        simp only [List.getElem?_append_right (le_refl _), List.nil_append, Nat.sub_self,
          List.getElem?_cons_zero] at hlook
        simp only [List.getElem?_append_right (Nat.le_succ _), List.nil_append] at hreq
        clear htrace
        generalize before.length = k at hlook hreq
        -- only the look-up of the open and that of the read are followed by a request
        match k with
        | 0 | 1 | 3 | 4 | 5 | 6 | 8 => cases hlook
        | 2 =>
            cases hreq
            rcases hio with h | h | h <;> cases h
        | 7 =>
            cases hlook
            rfl
        | k + 9 => cases hlook

/-- A fresh fid of the root directory is listed although it was never opened. -/
theorem read_of_a_fid_never_opened :
    ¬ ∀ (msgs : Unit → List Message) (t : List (Event ninep Unit)) (c : Config ninep Unit Shared),
      Run (semantics fun _ _ => True) (listener msgs) t c →
        ∀ before f e, Access t before f e → OpenedSince f before := by
  intro h
  obtain ⟨q, hread⟩ := passes_readingRoot false
  have hall : Passes (serveAll [attachAs 0, readRoot]) (attached 0 ++ readingRoot false) q :=
    Passes.bind (passes_attach 0 (Or.inl rfl)) hread
  have hstates : ∃ s, Performs (semantics fun _ _ => True) Shared.new
      (attached 0 ++ readingRoot false) s :=
    ⟨_, .answer _ _ (semantics_exec _ _) (.answer _ _ rfl
      (.answer _ _ (semantics_exec _ _) (.answer _ _ ⟨trivial, rfl⟩ (.refl _))))⟩
  obtain ⟨s, hstates⟩ := hstates
  have run : Run (semantics fun _ _ => True) (listener fun _ : Unit => [attachAs 0, readRoot]) _ _ :=
    hall.run () hstates rfl
  obtain ⟨t₁, ev, t₂, htrace, hopens, _⟩ := h _ _ _ run (alone () (attached 0)) 0 _
    ⟨(), [], _, _, [], rfl, nofun, Or.inr (Or.inl rfl)⟩
  have hev : ev ∈ alone () (attached 0) := by
    rw [htrace]
    simp
  simp only [alone, attached, List.map_cons, List.map_nil, List.mem_cons, List.not_mem_nil,
    or_false] at hev
  rcases hev with rfl | rfl <;> exact hopens

end Pinhead.OpenFids
