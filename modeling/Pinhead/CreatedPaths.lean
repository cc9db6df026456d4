import Pinhead.NormalPaths
import Pinhead.TextWords
import Pinhead.ClientReads

/-!
# The path of what is created

To create a file the client walks to the parent directory and sends the last name of the
path, and the server puts the name behind the path of the fid. To open it the client walks
along all the names. Slashes are trimmed, cut at and filtered out on the way in four places;
both ways lead to the names of the path that are not empty, each behind one slash.

What the router is asked to make is read off the server's own history. Other connections
may do anything but touch the fids in question.
-/
namespace Pinhead.CreatedPaths
open ByteStrings FsRequests Resumption Histories NinepShared NinepHandlers NinepRuns NinepScripts
open NinepCalls NinepLockstep NormalPaths TextWords
open NinepClient (components trimMatches)
open ClientOperations FidBindings ClientSessions ClientReads

/-! ## The names of a path -/

def parts (cs : List Char) : List (List Char) := (cs.splitOn '/').filter fun c => !c.isEmpty

/-- The segments that are not empty. -/
def namesIn (path : String) : List String := (parts path.toList).map String.ofList

/-- A slash, and the names with a slash between them. -/
def rooted (names : List String) : String := "/" ++ "/".intercalate names

theorem parts_slash (as bs : List Char) : parts (as ++ '/' :: bs) = parts as ++ parts bs := by
  rw [parts, List.splitOn_append_cons_self, List.filter_append]
  rfl

theorem parts_nil : parts [] = [] := rfl

theorem parts_dropWhile (cs : List Char) : parts (cs.dropWhile (· = '/')) = parts cs := by
  induction cs with
  | nil => rfl
  | cons c cs ih =>
      by_cases hc : c = '/'
      · rw [hc, List.dropWhile_cons_of_pos (by simp), ih, ← List.nil_append ('/' :: cs),
          parts_slash, parts_nil, List.nil_append]
      · rw [List.dropWhile_cons_of_neg (by simpa using hc)]

/-- Slashes at the end add no name. -/
theorem parts_slashes (cs : List Char) {after : List Char} (h : ∀ d ∈ after, d = '/') :
    parts (cs ++ after) = parts cs := by
  induction after generalizing cs with
  | nil => rw [List.append_nil]
  | cons d after ih =>
      obtain ⟨rfl, hafter⟩ := List.forall_mem_cons.mp h
      have hnone := ih [] hafter
      rw [List.nil_append, parts_nil] at hnone
      rw [parts_slash, hnone, List.append_nil]

theorem parts_trimEndMatches (path : String) :
    parts (trimEndMatches '/' path).toList = parts path.toList := by
  obtain ⟨after, hpath, hafter⟩ := trimEndMatches_spec '/' path
  rw [hpath, parts_slashes _ hafter]

theorem components_eq (path : String) : components path = namesIn path := by
  change (parts (trimMatches path).toList).map String.ofList = namesIn path
  rw [trimMatches, parts_trimEndMatches, trimStartMatches, String.toList_ofList, parts_dropWhile]
  rfl

/-- The part of a text without a slash is the text itself. -/
theorem parts_single {cs : List Char} (h : '/' ∉ cs) (hne : cs ≠ []) : parts cs = [cs] := by
  rw [parts, List.splitOn_eq_singleton h]
  cases cs with
  | nil => exact absurd rfl hne
  | cons c cs => rfl

theorem slash_not_mem_lastSegment (path : String) : '/' ∉ (lastSegment path).toList := by
  intro hmem
  rw [lastSegment, String.toList_ofList, List.mem_reverse] at hmem
  simpa using List.all_eq_true.mp List.all_takeWhile _ hmem

/-- The parent directory and the last name make up the path. -/
theorem namesIn_split {path : String} (h : namesIn path ≠ []) :
    namesIn path = namesIn (splitParentName path).1 ++ [(splitParentName path).2] := by
  have htrim : namesIn path = namesIn (trimEndMatches '/' path) := by
    rw [namesIn, namesIn, parts_trimEndMatches]
  have hend := trimEndMatches_last '/' path
  rw [htrim] at h ⊢
  rw [splitParentName]
  generalize trimEndMatches '/' path = trimmed at h hend ⊢
  have hlast := slash_not_mem_lastSegment trimmed
  cases hbefore : beforeLastSlash trimmed with
  | none =>
      rw [beforeLastSlash_none hbefore] at hlast
      have hne : trimmed.toList ≠ [] := fun hnil => h (by rw [namesIn, hnil]; rfl)
      have hroot : namesIn "/" = [] := by decide
      dsimp only
      rw [hroot, namesIn, parts_single hlast hne, List.map_singleton, String.ofList_toList]
      rfl
  | some parent =>
      have hcut := beforeLastSlash_some hbefore
      have hne : (lastSegment trimmed).toList ≠ [] := by
        intro hnil
        rw [hnil] at hcut
        exact hend (by rw [hcut, List.getLast?_append_of_ne_nil _ (List.cons_ne_nil _ _)]; rfl)
      have hparent : namesIn (if parent = "" then "/" else parent) = namesIn parent := by
        split
        · next hempty => rw [hempty]; rfl
        · rfl
      dsimp only
      rw [hparent, namesIn, hcut, parts_slash, parts_single hlast hne, List.map_append,
        List.map_singleton, String.ofList_toList]
      rfl

theorem joinPath_eq {parent : String} (h : endsWithSlash parent = false) (name : String) :
    joinPath parent name = parent ++ ("/" ++ name) := by
  rw [joinPath, h, if_neg Bool.false_ne_true, String.append_assoc]

/-- A name that stands between slashes. -/
structure Name (name : String) : Prop where
  nonempty : name ≠ ""
  whole : endsWithSlash name = false

theorem name_of_mem {path name : String} (h : name ∈ namesIn path) : Name name := by
  obtain ⟨seg, hseg, rfl⟩ := List.mem_map.mp h
  obtain ⟨hseg, hne⟩ := List.mem_filter.mp hseg
  have hne : seg ≠ [] := by simpa using hne
  constructor
  · intro hempty
    rw [← String.toList_eq_nil_iff, String.toList_ofList] at hempty
    exact hne hempty
  · rw [endsWithSlash, String.toList_ofList, beq_eq_false_iff_ne]
    intro hlast
    exact (mem_segment hseg (List.mem_of_getLast? hlast)).2 rfl

theorem foldl_joinPath {names : List String} (hnames : ∀ name ∈ names, Name name) {path : String}
    (hpath : endsWithSlash path = false) :
    names.foldl joinPath path = path ++ String.join (names.map ("/" ++ ·)) := by
  induction names generalizing path with
  | nil => rw [List.map_nil, String.join_nil, String.append_empty, List.foldl_nil]
  | cons name names ih =>
      obtain ⟨hname, hnames⟩ := List.forall_mem_cons.mp hnames
      have hstep := joinPath_eq hpath name
      have hjoined : endsWithSlash (joinPath path name) = false := by
        have hlast := (endsWithSlash_cons hname.nonempty).trans hname.whole
        rw [hstep, endsWithSlash, String.toList_append, List.getLast?_append_of_ne_nil]
        · exact hlast
        · simp
      rw [List.foldl_cons, ih hnames hjoined, hstep, List.map_cons, String.join_cons,
        String.append_assoc]

theorem rooted_eq (names : List String) (h : names ≠ []) :
    rooted names = String.join (names.map ("/" ++ ·)) := by
  induction names with
  | nil => exact absurd rfl h
  | cons name names ih =>
      cases names with
      | nil =>
          rw [rooted, String.intercalate_singleton, List.map_singleton, String.join_cons,
            String.join_nil, String.append_empty]
      | cons next rest =>
          rw [rooted, String.intercalate_cons_cons, List.map_cons, String.join_cons,
            ← ih (List.cons_ne_nil _ _), rooted]
          simp only [String.append_assoc]

/-- A walk from the root comes to the names behind one slash each. -/
theorem foldl_root {path : String} (h : namesIn path ≠ []) :
    (namesIn path).foldl joinPath "/" = rooted (namesIn path) := by
  have hnames : ∀ name ∈ namesIn path, Name name := fun name hname => name_of_mem hname
  rw [rooted_eq _ h, ← String.empty_append (s := String.join _)]
  cases hsplit : namesIn path with
  | nil => exact absurd hsplit h
  | cons first rest =>
      rw [hsplit] at hnames
      -- the empty path takes the first name as the root does
      rw [← foldl_joinPath hnames rfl]
      rfl

/-! ## What is made -/

/-- The request that makes a file or a directory. -/
def making (dir : Bool) (path : String) : Request := ⟨if dir then .mkDir else .create, path, []⟩

def Makes (req : Request) : Prop := req.op = .create ∨ req.op = .mkDir

instance : DecidablePred Makes := fun req =>
  inferInstanceAs (Decidable (req.op = .create ∨ req.op = .mkDir))

/-- The requests of a history that make something. -/
def made (h : List (Answered ninep)) : List Request := h.filterMap fun e => match e.op with
  | .route req => if Makes req then some req else none
  | _ => none

theorem made_append (h h' : List (Answered ninep)) : made (h ++ h') = made h ++ made h' :=
  List.filterMap_append

theorem made_eq_nil {h : List (Answered ninep)}
    (hh : ∀ e ∈ h, ∀ req, e.op = .route req → ¬ Makes req) : made h = [] := by
  refine List.filterMap_eq_nil_iff.mpr fun e he => ?_
  split
  · next req hop => exact if_neg (hh e he req hop)
  · rfl

theorem makes_making (dir : Bool) (path : String) : Makes (making dir path) := by
  cases dir with
  | false => exact Or.inl rfl
  | true => exact Or.inr rfl

theorem made_making (dir : Bool) (path : String) (a : Answer) (h : List (Answered ninep)) :
    made (⟨.route (making dir path), a⟩ :: h) = making dir path :: made h :=
  List.filterMap_cons_some (if_pos (makes_making dir path))

/-- The fid is looked up first, and then one thing is made behind its path. -/
def MakesOne (fid : UInt32) (name : String) (dir : Bool) (r : Except String Unit)
    (h : List (Answered ninep)) : Prop :=
  ∃ (entry : Option FidEntry) (rest : List (Answered ninep)),
    h = (⟨.locked (.getFid fid), entry⟩ : Answered ninep) :: rest ∧
      match entry with
      | none => made rest = [] ∧ r ≠ .ok ()
      | some e => made rest = [making dir (joinPath e.path name)]

theorem makesOne_create {fid perm : UInt32} {name : String} {mode : UInt8}
    {h : List (Answered ninep)} {r : Except String Unit}
    (hp : Passes ((Call.create fid name perm mode).served 0).run h (.done r)) :
    MakesOne fid name (perm.toNat.testBit 31) r h := by
  refine hp.traced (Q := MakesOne fid name (perm.toNat.testBit 31)) ?_
  refine wp_seq (wp_seq ⟨trivial, fun entry _ => ?_⟩)
  match entry with
  | none => exact ⟨none, [], rfl, rfl, nofun⟩
  | some e =>
      refine wp_seq ⟨trivial, fun a _ => ?_⟩
      match a with
      | .routerGone => exact ⟨some e, _, rfl, made_making _ _ _ []⟩
      | .handlerGone => exact ⟨some e, _, rfl, made_making _ _ _ []⟩
      | .reply (.error _) => exact ⟨some e, _, rfl, made_making _ _ _ []⟩
      | .reply (.ok _) =>
          exact ⟨trivial, fun _ _ => ⟨trivial, fun _ _ => ⟨some e, _, rfl, made_making _ _ _ _⟩⟩⟩

/-- A message whose requests make nothing. -/
theorem made_asked {op : FsOperation} (hcreate : op ≠ .create) (hmkDir : op ≠ .mkDir) {m : Message}
    {h : List (Answered ninep)} {q : Prog ninep Unit} (hp : Passes (serveMessage m) h q)
    (hw : wp (NinepScripts.asks fun req => req.op = op) (serveMessage m) (fun _ _ => True) ()) :
    made h = [] := by
  refine made_eq_nil fun e he req hroute => ?_
  obtain ⟨_, hasks⟩ := hp.admitted (fun _ _ _ _ => trivial) hw e he
  rw [Makes, hasks req hroute]
  exact not_or.mpr ⟨hcreate, hmkDir⟩

/-- What may have been made in an exchange. -/
def Made (F : Set UInt32) (b : Bindings) : Call → Except String Bytes → List Request → Prop
  | .walk _ _ _, _, new | .clunk _, _, new => new = []
  | .create fid name perm _, r, new => (new = [] ∧ ∃ e, r = .error e) ∨
      ∃ x : String × Bool, (fid ∈ F → b fid = some x) ∧
        new = [making (perm.toNat.testBit 31) (joinPath x.1 name)]
  | _, _, _ => True

section
variable {F : Set UInt32} {router : Request → Answer → Prop} {A : Call → Option Outcome → Prop}
  {b : Bindings} {ch ch' : Channel} {v : View}

theorem made_failed (c : Call) (e : String) : Made F b c (.error e) [] := by
  cases c with
  | walk _ _ _ | clunk _ => rfl
  | create _ _ _ _ => exact Or.inl ⟨rfl, e, rfl⟩
  | _ => trivial

/-- The fid of a Tcreate is looked up as it is bound. -/
theorem MakesOne.bound {fid : UInt32} {name : String} {dir : Bool} {r : Except String Unit}
    {h : List (Answered ninep)} (hone : MakesOne fid name dir r h) {s s' : Shared}
    (hs : Performs (amid (Spares F) (semantics router)) s h s') (hb : ∀ f ∈ F, bindings s f = b f) :
    (made h = [] ∧ r ≠ .ok ()) ∨ ∃ x : String × Bool, (fid ∈ F → b fid = some x) ∧
      made h = [making dir (joinPath x.1 name)] := by
  obtain ⟨entry, rest, rfl, hmade⟩ := hone
  cases hs with
  | answer _ _ hsem _ =>
      obtain ⟨hadmits, _⟩ := tables_step hb hsem
      match entry with
      | none => exact Or.inl hmade
      | some e => exact Or.inr ⟨standsFor e, fun hf => (hadmits hf).symm, hmade⟩

theorem made_create {fid perm : UInt32} {name : String} {mode : UInt8}
    (hbody : (Call.create fid name perm mode).body.length ≤ 65536) {h : List (Answered ninep)}
    {o : Outcome} (hE : Ended (.create fid name perm mode) h o) {s s' : Shared}
    (hs : Performs (amid (Spares F) (semantics router)) s h s') (hb : ∀ f ∈ F, bindings s f = b f) :
    (made h = [] ∧ ∃ e, o = .failed e) ∨ ∃ x : String × Bool, (fid ∈ F → b fid = some x) ∧
      made h = [making (perm.toNat.testBit 31) (joinPath x.1 name)] := by
  have hserved := handleMessage_eq_served (fields_message hbody)
  cases hE with
  | replied ty body hp _ =>
      rw [hserved] at hp
      exact ((makesOne_create hp).bound hs hb).imp_left fun ⟨_, hok⟩ => absurd rfl hok
  | @failed h e hp _ =>
      rw [hserved] at hp
      obtain ⟨s₁, hs₁, _⟩ := hs.of_append
      rw [made_append]
      refine ((makesOne_create hp).bound hs₁ hb).imp (fun ⟨hnil, _⟩ => ?_) fun ⟨x, hx, hmade⟩ => ?_
      · rw [hnil]
        exact ⟨rfl, e, rfl⟩
      · rw [hmade]
        exact ⟨x, hx, rfl⟩

/-- On an open connection, or on one that is closed, an exchange makes what its message says. -/
theorem exchanged_makes {x : Exchange}
    (hx : Exchanged (amid (Spares F) (semantics router)) ch x ch') (hv : Seen F ch v)
    {K : Except String Bytes → View → Prop} (hK : heard F router A x.call K v) :
    Made F v.bound x.call x.result (made x.history) := by
  rcases hx.taken hv.link (heard_short hK) with ⟨_, hbody, hs, o, hended, hresult⟩ |
    ⟨_, hnil, ⟨e, he⟩, _, _⟩
  · obtain ⟨c, h, r⟩ := x
    have hserves := ended_serves hended
    cases c with
    | walk fid newFid names => exact made_asked (by decide) (by decide) hserves (asks_serveWalk 0 _)
    | clunk fid => exact made_asked (by decide) (by decide) hserves (asks_serveClunk 0 _)
    | create fid name perm mode =>
        refine (made_create hbody hended hs hv.bound).imp_left fun ⟨hnil, e, ho⟩ => ?_
        subst ho
        exact ⟨hnil, _, (hresult trivial).1⟩
    | _ => trivial
  · rw [hnil, he]
    exact made_failed x.call e

/-! ## The operations -/

/-- The requests of a dialogue that make something. -/
def requests (k : List Exchange) : List Request := k.flatMap fun x => made x.history

/-- A message that asks for nothing to be made. -/
def Steady : Call → Prop
  | .walk _ _ _ | .clunk _ => True
  | _ => False

variable {P : Request → Prop} {before : List Request}

variable (F router P) in
/-- What a client may expect of its server, and the requests so far that make something. All
of these satisfy `P`. -/
def noted : Spec wire (View × List Request) := fun c K t =>
  heard F router (fun _ _ => True) c (fun r v => ∀ new, Made F t.1.bound c r new →
    (∀ req ∈ new, P req) ∧ K r (v, t.2 ++ new)) t.1

/-- What is proved of an operation holds of the requests of every dialogue. -/
theorem dialogue_noted {B : Type} {p q : Prog wire B} {k : List Exchange}
    (hk : Dialogue (amid (Spares F) (semantics router)) ch k ch') (hp : Passes p (answers k) q)
    (hv : Seen F ch v) {Q : B → View × List Request → Prop}
    (hw : wp (noted F router P) p Q (v, before)) :
    (∀ req ∈ requests k, P req) ∧ ∃ v', Seen F ch' v' ∧
      wp (noted F router P) q Q (v', before ++ requests k) := by
  induction hk generalizing p v before with
  | refl ch =>
      cases hp
      refine ⟨nofun, v, hv, ?_⟩
      rw [requests, List.flatMap_nil, List.append_nil]
      exact hw
  | @exchange _ _ _ x _ hx _ ih =>
      cases hp with
      | answer o next r hrest =>
          have hcall : heard F router (fun _ _ => True) x.call (fun r v' => ∀ new,
              Made F v.bound x.call r new → (∀ req ∈ new, P req) ∧
                wp (noted F router P) (next r) Q (v', before ++ new)) v := hw
          obtain ⟨_, v₁, hv₁, hnext⟩ := hx.heard hv (fun _ _ => trivial) hcall
          obtain ⟨hfirst, hnext⟩ := hnext _ (exchanged_makes hx hv hcall)
          obtain ⟨hlater, v', hv', hlast⟩ := ih hrest hv₁ hnext
          rw [requests, List.flatMap_cons, ← List.append_assoc]
          exact ⟨List.forall_mem_append.mpr ⟨hfirst, hlater⟩, v', hv', hlast⟩

theorem noted_steady {B : Type} {p : Prog wire B} (hp : Confined Steady (fun _ => True) p)
    {Q : B → View × List Request → Prop}
    (hw : wp (heard F router fun _ _ => True) p (fun r v => Q r (v, before)) v) :
    wp (noted F router P) p Q (v, before) := by
  induction p generalizing v with
  | done r => exact hw
  | call c next ih =>
      refine heard_monotone c _ _ v (fun r v' hnext new hmade => ?_) hw
      obtain rfl : new = [] := by
        cases c with
        | walk _ _ _ | clunk _ => exact hmade
        | _ => exact hp.1.elim
      rw [List.append_nil]
      exact ⟨nofun, ih r (hp.2 r) hnext⟩

theorem confined_of_within {B : Type} {p : Prog wire B} (hp : Within 0 p) :
    Confined Steady (fun _ => True) p := by
  cases hp with
  | done _ a => trivial

theorem steady_walk (fid newFid : UInt32) (path : String) :
    Confined Steady (fun _ => True) (walk fid newFid path).run := by
  cases within_walk fid newFid path with
  | call hnext => exact ⟨trivial, fun r => confined_of_within (hnext r)⟩

theorem steady_clunk (fid : UInt32) :
    Confined Steady (fun _ => True) (ignoring (clunk fid)).run := by
  cases within_clunk fid with
  | call hnext => exact ⟨trivial, fun r => confined_of_within (hnext r)⟩

theorem noted_create {fid perm : UInt32} {name path : String} {mode : UInt8} {isDir : Bool}
    (hsize : (Call.create fid name perm mode).body.length ≤ 65536) (hfid : fid ∈ F)
    (hb : b fid = some (path, isDir)) (hP : P (making (perm.toNat.testBit 31) (joinPath path name)))
    {Q : Except Stop Unit → View × List Request → Prop}
    (hok : ∀ x, Q (.ok ()) (⟨Function.update b fid x, true⟩,
      before ++ [making (perm.toNat.testBit 31) (joinPath path name)]))
    (herr : ∀ e new, Q (.error (.failed e)) (⟨b, true⟩, before ++ new)) :
    wp (noted F router P) (create fid name perm mode).run Q (⟨b, true⟩, before) := by
  have hone : ∀ r new, Made F b (.create fid name perm mode) r new →
      (new = [] ∧ ∃ e, r = .error e) ∨
        new = [making (perm.toNat.testBit 31) (joinPath path name)] := by
    refine fun r new hmade => hmade.imp_right fun ⟨x, hx, hnew⟩ => ?_
    rw [hb] at hx
    obtain rfl := Option.some.inj (hx hfid)
    exact hnew
  have hall : ∀ r new, Made F b (.create fid name perm mode) r new → ∀ req ∈ new, P req := by
    intro r new hmade
    rcases hone r new hmade with ⟨rfl, _⟩ | rfl
    · exact nofun
    · exact List.forall_mem_singleton.mpr hP
  refine wp_seq ⟨by omega, fun _ o b' heffect _ => ?_, fun hlong => absurd hsize (not_le.mpr hlong)⟩
  cases o with
  | failed e =>
      obtain rfl := effect_failed heffect
      exact ⟨trivial, fun new hmade => ⟨hall _ new hmade, herr _ new⟩⟩
  | replied body =>
      cases heffect with
      | create _ hlength =>
          have hshort : body.length < 2 ^ 32 - 7 := by omega
          refine ⟨hshort, fun new hmade => ⟨hall _ new hmade, ?_⟩⟩
          rcases hone _ new hmade with ⟨_, e, he⟩ | rfl
          · cases he
          · exact hok _

theorem walk_length (fid newFid : UInt32) (names : List String) :
    (Call.walk fid newFid names).body.length = 10 + (names.flatMap counted).length := by
  simp only [Call.body, List.length_append, leBytes_length]
  omega

/-- The names of a path are those of its parent directory, and its last name. -/
structure Parent (path : String) : Prop where
  names : components path = components (splitParentName path).1 ++ [(splitParentName path).2]
  joined : joinPath ((components (splitParentName path).1).foldl joinPath "/")
    (splitParentName path).2 = rooted (namesIn path)

theorem parent_of_names {path : String} (h : namesIn path ≠ []) : Parent path := by
  have hsplit := namesIn_split h
  constructor
  · rw [components_eq, components_eq]
    exact hsplit
  · rw [components_eq, ← foldl_root h]
    calc _ = (namesIn (splitParentName path).1 ++ [(splitParentName path).2]).foldl joinPath "/" := by
          rw [List.foldl_append, List.foldl_cons, List.foldl_nil]
      _ = _ := by rw [← hsplit]

/-- What has come of an operation that makes something at `path`. -/
def Created (b : Bindings) (fid : UInt32) (req : Request) (r : Except Stop String)
    (t : View × List Request) : Prop :=
  t.1.opened = true ∧ (fid ≠ 1 → t.1.bound 1 = b 1) ∧ ∀ s, r = .ok s → t.2 = [req]

theorem created_failed (fid : UInt32) (req : Request) (stop : Stop) (reqs : List Request) :
    Created b fid req (.error stop) (⟨b, true⟩, reqs) := by
  refine ⟨rfl, fun _ => rfl, fun s hs => ?_⟩
  cases hs

theorem created_update {fid : UInt32} {req : Request} {r : Except Stop String}
    {x : Option (String × Bool)} {b' : Bindings} {reqs : List Request}
    (h : Created b fid req r (⟨b', true⟩, reqs)) :
    Created b fid req r (⟨Function.update b' fid x, true⟩, reqs) := by
  obtain ⟨_, hroot, hreqs⟩ := h
  refine ⟨rfl, fun hne => ?_, hreqs⟩
  exact (Function.update_of_ne (Ne.symm hne) x b').trans (hroot hne)

theorem noted_createIn {path : String} (hnames : namesIn path ≠ []) {c : Client}
    (hsize : (Call.walk 1 c.nextFid (components path)).body.length ≤ 65536)
    (hone : (1 : UInt32) ∈ F) (hfid : c.nextFid ∈ F) {isDir : Bool}
    (hroot : b 1 = some ("/", isDir)) {req : Request} {perm : UInt32} {mode : UInt8}
    (hreq : req = making (perm.toNat.testBit 31) (rooted (namesIn path))) :
    wp (noted F router (· = req)) (createIn c path perm mode).run (Created b c.nextFid req)
      (⟨b, true⟩, []) := by
  obtain ⟨hsplit, hjoined⟩ := parent_of_names hnames
  rw [hsplit, walk_length, List.flatMap_append, List.flatMap_singleton, List.length_append,
    counted, List.length_append, leBytes_length] at hsize
  have hwalk : (Call.walk 1 c.nextFid (components (splitParentName path).1)).body.length ≤ 65536 := by
    rw [walk_length]
    omega
  have hcreate : (Call.create c.nextFid (splitParentName path).2 perm mode).body.length ≤ 65536 := by
    simp only [Call.body, List.length_append, leBytes_length, List.length_singleton]
    omega
  rw [← hjoined] at hreq
  -- nothing is made before the walk has succeeded
  refine wp_seq (noted_steady (steady_walk _ _ _) (heard_walk (by omega) (fun x hx => ?_)
    (fun _ _ _ => created_failed _ _ _ _) fun hlong => absurd hwalk (not_le.mpr hlong)))
  rw [hroot] at hx
  obtain rfl := Option.some.inj (hx hone)
  refine wp_seq (noted_create hcreate hfid (Function.update_self ..) hreq.symm (fun x => ?_)
    fun _ _ => created_update (created_failed _ _ _ _))
  refine wp_seq (noted_steady (steady_clunk _) (heard_clunk ?_))
  refine created_update (created_update (created_update ⟨rfl, fun _ => rfl, fun _ _ => ?_⟩))
  rw [hreq]
  rfl

theorem heard_connect : wp (heard F router fun _ _ => True) connect.run (fun r v =>
    ∀ c, r = .ok c → c.nextFid = 4 ∧ v = ⟨Function.update b 1 (some ("/", true)), true⟩)
    ⟨b, true⟩ := by
  have hversion : (Call.version (Client.mk 65536 1).msize).body.length = 12 := by decide
  have hattach : (Call.attach 1 NOFID).body.length = 12 := by decide
  have hattached : ∀ c : Client, wp (heard F router fun _ _ => True)
      (attach >>= fun _ => pure { c with nextFid := 4 } : Operation Client).run (fun r v => ∀ c,
        r = .ok c → c.nextFid = 4 ∧ v = ⟨Function.update b 1 (some ("/", true)), true⟩)
      ⟨b, true⟩ := by
    intro c
    refine wp_seq (wp_seq (heard_sendRecv (by omega) (fun _ body b' heffect _ => ?_)
      (fun _ _ _ _ => nofun) (by omega)))
    cases heffect with
    | attach _ _ _ =>
        refine ⟨by decide, fun c' hc => ?_⟩
        obtain rfl := Except.ok.inj hc
        exact ⟨rfl, rfl⟩
  refine wp_seq (wp_seq (heard_sendRecv (by omega) (fun _ body b' heffect _ => ?_)
    (fun _ _ _ _ => nofun) (by omega)))
  cases heffect with
  | version _ _ => exact ⟨by decide, wp_seq (wp_uintFrom (hattached _) nofun)⟩

end

/-- A client that has connected has the root as fid 1, and takes its own fids from 4 on. -/
theorem connect_attaches {F : Set UInt32} (hone : (1 : UInt32) ∈ F)
    {router : Request → Answer → Prop} {ch ch' : Channel} (hlink : ch.link = some Link.new)
    {k : List Exchange} (hk : Dialogue (amid (Spares F) (semantics router)) ch k ch') {c : Client}
    (hp : Passes connect.run (answers k) (.done (.ok c))) :
    c.nextFid = 4 ∧ ch'.link = some Link.new ∧ bindings ch'.shared 1 = some ("/", true) := by
  have hseen : Seen F ch ⟨bindings ch.shared, true⟩ := ⟨fun _ _ => rfl, hlink⟩
  obtain ⟨_, v, hv, hresult⟩ := hk.heard hp hseen (fun _ _ _ _ => trivial) heard_connect
  obtain ⟨hfid, rfl⟩ := hresult c rfl
  refine ⟨hfid, hv.link, ?_⟩
  rw [hv.bound 1 hone]
  dsimp only
  rw [Function.update_self]

/-- The operation that makes a directory or a file. -/
def maker (c : Client) (path : String) : Bool → Operation String
  | true => mkdir c path
  | false => createFile c path

/-- All that the router is asked to make is the path made of the names of the given one, and
it is asked if the operation succeeds. A later walk along the path leads there as well. Other
connections may do anything but touch fid 1 and the fid of the operation. -/
theorem created_where_walked {router : Request → Answer → Prop} {path : String}
    (hnames : namesIn path ≠ []) {c : Client}
    (hsize : (Call.walk 1 c.nextFid (components path)).body.length ≤ 65536) {ch ch' : Channel}
    (hlink : ch.link = some Link.new) {isDir : Bool}
    (hroot : bindings ch.shared 1 = some ("/", isDir)) {k : List Exchange}
    (hk : Dialogue (amid (Spares {1, c.nextFid}) (semantics router)) ch k ch') {dir : Bool}
    {q : Prog wire (Except Stop String)} (hp : Passes (maker c path dir).run (answers k) q) :
    (∀ req ∈ requests k, req = making dir (rooted (namesIn path))) ∧
    (∀ r, q = .done r → ch'.link = some Link.new ∧
      (c.nextFid ≠ 1 → bindings ch'.shared 1 = some ("/", isDir)) ∧
      ∀ s, r = .ok s → requests k = [making dir (rooted (namesIn path))]) ∧
    ∀ (fid : UInt32) (ch₁ ch₂ : Channel) (isDir₁ : Bool) (k₁ : List Exchange),
      ch₁.link = some Link.new → bindings ch₁.shared 1 = some ("/", isDir₁) →
      Dialogue (amid (Spares {1, fid}) (semantics router)) ch₁ k₁ ch₂ →
      Passes (walk 1 fid path).run (answers k₁) (.done (.ok ())) →
      ∃ d, bindings ch₂.shared fid = some (rooted (namesIn path), d) := by
  have hseen : Seen {1, c.nextFid} ch ⟨bindings ch.shared, true⟩ := ⟨fun _ _ => rfl, hlink⟩
  have hone : (1 : UInt32) ∈ ({1, c.nextFid} : Set UInt32) := Set.mem_insert ..
  have hfid : c.nextFid ∈ ({1, c.nextFid} : Set UInt32) := Set.mem_insert_of_mem _ rfl
  have hmaker : wp (noted {1, c.nextFid} router (· = making dir (rooted (namesIn path))))
      (maker c path dir).run
      (Created (bindings ch.shared) c.nextFid (making dir (rooted (namesIn path))))
      (⟨bindings ch.shared, true⟩, []) := by
    cases dir with
    | true => exact noted_createIn hnames hsize hone hfid hroot rfl
    | false => exact noted_createIn hnames hsize hone hfid hroot rfl
  obtain ⟨hall, v, hv, hlast⟩ := dialogue_noted hk hp hseen hmaker
  refine ⟨hall, ?_, ?_⟩
  · rintro r rfl
    obtain ⟨hopened, hkept, hmade⟩ := hlast
    have hopen := hv.link
    rw [hopened] at hopen
    exact ⟨hopen, fun hne => ((hv.bound 1 hone).trans (hkept hne)).trans hroot, hmade⟩
  · intro fid ch₁ ch₂ isDir₁ k₁ hlink₁ hroot₁ hk₁ hp₁
    have hseen₁ : Seen {1, fid} ch₁ ⟨bindings ch₁.shared, true⟩ := ⟨fun _ _ => rfl, hlink₁⟩
    rw [walk_length, ← walk_length 1 fid] at hsize
    have hwalk : wp (heard {1, fid} router fun _ _ => True) (walk 1 fid path).run
        (fun r v => r = .ok () → ∃ d, v.bound fid = some (rooted (namesIn path), d))
        ⟨bindings ch₁.shared, true⟩ := by
      refine heard_walk (by omega) (fun x hx _ => ?_) (fun _ _ _ => nofun)
        fun hlong => absurd hsize (not_le.mpr hlong)
      rw [hroot₁] at hx
      obtain rfl := Option.some.inj (hx (Set.mem_insert ..))
      rw [← foldl_root hnames, ← components_eq]
      exact ⟨_, Function.update_self ..⟩
    obtain ⟨_, v₁, hv₁, hbound⟩ := hk₁.heard hp₁ hseen₁ (fun _ _ _ _ => trivial) hwalk
    rw [hv₁.bound _ (Set.mem_insert_of_mem _ rfl)]
    exact hbound rfl

/-! ## A file in the root directory -/

def rootCloned : Shared := ((Critical.setFid 4 0 "/" true).exec (rootAttached 8192)).2

def fileCreated : Shared := ((Critical.createFid 4 "/a" false).exec rootCloned).2

def fileLeft : Shared := ((Critical.removeFid 4).exec fileCreated).2

def fileFound : Shared :=
  ((Critical.setFid 4 1 "/a" false).exec ((Critical.allocQid "/a" false).exec fileLeft).2).2

/-- Fid 4 is bound to the root. -/
def cloning : List (Answered ninep) :=
  [⟨.locked (.getFid 1), some (⟨0, "/", false, true⟩ : FidEntry)⟩,
    ⟨.locked (.setFid 4 0 "/" true), ()⟩]

def creating : List (Answered ninep) :=
  [⟨.locked (.getFid 4), some (⟨0, "/", false, true⟩ : FidEntry)⟩,
    ⟨.route ⟨.create, "/a", []⟩, .reply (.ok ⟨[], none, false⟩)⟩,
    ⟨.locked (.createFid 4 "/a" false), (1 : ℕ)⟩]

def cloneExchange : Exchange :=
  ⟨.walk 1 4 [], cloning ++ [⟨.send (message RWALK 0 (leBytes 2 0)), ()⟩], .ok (leBytes 2 0)⟩

def createExchange : Exchange :=
  ⟨.create 4 "a" 0x1a4 1, creating ++ [⟨.send (message RCREATE 0 (encodeQid ⟨0, 0, 1⟩)), ()⟩],
    .ok (encodeQid ⟨0, 0, 1⟩)⟩

theorem passes_cloning : Passes ((Call.walk 1 4 []).served 0).run
    (cloning ++ [⟨.send (message RWALK 0 (leBytes 2 0)), ()⟩]) (.done (.ok ())) :=
  .answer _ _ _ (.answer _ _ _ (.answer _ _ _ (.refl _)))

theorem passes_creating : Passes ((Call.create 4 "a" 0x1a4 1).served 0).run
    (creating ++ [⟨.send (message RCREATE 0 (encodeQid ⟨0, 0, 1⟩)), ()⟩]) (.done (.ok ())) :=
  .answer _ _ _ (.answer _ _ _ (.answer _ _ _ (.answer _ _ _ (.refl _))))

section
variable {F : Set UInt32}

theorem exchanged_clone : Exchanged (amid (Spares F) (semantics (serving [])))
    ⟨rootAttached 8192, some Link.new⟩ cloneExchange ⟨rootCloned, some Link.new⟩ :=
  .served (by decide) passes_cloning (silence_of rfl) (by decide) (by decide)
    (Performs.amid (idle_spares F) (.answer _ _ (semantics_exec _ _)
      (.answer _ _ (semantics_exec _ _) (.answer _ _ rfl (.refl _)))))

theorem exchanged_create : Exchanged (amid (Spares F) (semantics (serving [])))
    ⟨rootCloned, some Link.new⟩ createExchange ⟨fileCreated, some Link.new⟩ :=
  .served (by decide) passes_creating (silence_of rfl) (by decide) (by decide)
    (Performs.amid (idle_spares F) (.answer _ _ (semantics_exec _ _) (.answer _ _ ⟨rfl, rfl⟩
      (.answer _ _ (semantics_exec _ _) (.answer _ _ rfl (.refl _))))))

theorem exchanged_leave : Exchanged (amid (Spares F) (semantics (serving [])))
    ⟨fileCreated, some Link.new⟩ clunkExchange ⟨fileLeft, some Link.new⟩ :=
  .served (by decide) passes_clunking (silence_of rfl) (by decide) (by decide)
    (Performs.amid (idle_spares F) (.answer _ _ (semantics_exec _ _) (.answer _ _ ⟨rfl, rfl⟩
      (.answer _ _ (semantics_exec _ _) (.answer _ _ rfl (.refl _))))))

theorem exchanged_find : Exchanged (amid (Spares F) (semantics (serving [])))
    ⟨fileLeft, some Link.new⟩ walkExchange ⟨fileFound, some Link.new⟩ :=
  .served (by decide) passes_walking (silence_of rfl) (by decide) (by decide)
    (Performs.amid (idle_spares F) (.answer _ _ (semantics_exec _ _) (.answer _ _ ⟨rfl, rfl⟩
      (.answer _ _ (semantics_exec _ _) (.answer _ _ (semantics_exec _ _)
      (.answer _ _ rfl (.refl _)))))))

end

def exchangesMade : List Exchange := [cloneExchange, createExchange, clunkExchange]

theorem dialogue_made (F : Set UInt32) : Dialogue (amid (Spares F) (semantics (serving [])))
    ⟨rootAttached 8192, some Link.new⟩ exchangesMade ⟨fileLeft, some Link.new⟩ :=
  .exchange exchanged_clone (.exchange exchanged_create (.exchange exchanged_leave (.refl _)))

theorem passes_made : Passes (maker ⟨8192, 4⟩ "//a/" false).run (answers exchangesMade)
    (.done (.ok "")) :=
  .answer _ _ _ (.answer _ _ _ (.answer _ _ _ (.refl _)))

/-- With slashes before and behind the name, the file is still made and found as `/a`. -/
theorem created_where_walked_slashes : ∃ (k : List Exchange) (ch : Channel),
    Dialogue (amid (Spares {1, 4}) (semantics (serving [])))
      ⟨rootAttached 8192, some Link.new⟩ k ch ∧
    Passes (maker ⟨8192, 4⟩ "//a/" false).run (answers k) (.done (.ok "")) ∧
    requests k = [⟨.create, "/a", []⟩] ∧ ∃ (k₁ : List Exchange) (ch₁ : Channel),
      Dialogue (amid (Spares {1, 4}) (semantics (serving []))) ch k₁ ch₁ ∧
      Passes (walk 1 4 "//a/").run (answers k₁) (.done (.ok ())) ∧
      ∃ d, bindings ch₁.shared 4 = some ("/a", d) := by
  have hnames : namesIn "//a/" = ["a"] := by decide
  have hrooted : rooted ["a"] = "/a" := by decide
  have hsize : (Call.walk 1 (Client.mk 8192 4).nextFid (components "//a/")).body.length ≤ 65536 := by
    decide
  have hroot : bindings (rootAttached 8192) 1 = some ("/", true) := rfl
  have hwalk : Dialogue (amid (Spares {1, 4}) (semantics (serving [])))
      ⟨fileLeft, some Link.new⟩ [walkExchange] ⟨fileFound, some Link.new⟩ :=
    .exchange exchanged_find (.refl _)
  have hfound : Passes (walk 1 4 "//a/").run (answers [walkExchange]) (.done (.ok ())) :=
    .answer _ _ _ (.refl _)
  obtain ⟨_, hdone, hlater⟩ := created_where_walked (by rw [hnames]; exact List.cons_ne_nil _ _)
    hsize rfl hroot (dialogue_made _) passes_made
  obtain ⟨hlink, hkept, hmade⟩ := hdone _ rfl
  have hwhere := hlater 4 _ _ true _ hlink (hkept (by decide)) hwalk hfound
  rw [hnames, hrooted] at hwhere hmade
  exact ⟨_, _, dialogue_made _, passes_made, hmade "" rfl, _, _, hwalk, hfound, hwhere⟩

end Pinhead.CreatedPaths
