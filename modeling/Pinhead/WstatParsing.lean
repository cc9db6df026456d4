import Pinhead.StatRecords

/-!
# What a wstat makes of a stat record

A stat replies with a record whose first field is its size. The wstat parser takes
the record for one without it: it expects the name two bytes before the position
it was written at, and in a record that is cut short before that it expects it in
the place of the first field that is missing.

The record of a stat with another name put into it therefore never renames, and a
wstat renames without looking at the name field at all.
-/
namespace Pinhead.WstatParsing
open ByteStrings FsRequests Resumption NinepShared NinepHandlers NinepRuns NinepDatagrams
open NinepScripts StatRecords

/-! ## Sending a record back -/

/-- The record with another name and its lengths adjusted. -/
def replaceName (stat : Bytes) (name : String) : Bytes :=
  let rest := (stat.drop 2).take 39 ++ (nameField name ++ stat.drop (43 + uintAt 2 stat 41))
  leBytes 2 rest.length ++ rest

def wstatBody (fid : UInt32) (stat : Bytes) : Bytes :=
  leBytes 4 fid.toNat ++ (leBytes 2 stat.length ++ stat)

/-- The record that the server replies to a stat of the fid, and the world after it. -/
def Stats (env : Env) (s : Shared) (fid : UInt32) (stat : Bytes) (w : World) : Prop :=
  evaluate env (serveMessage ⟨TSTAT, 0, leBytes 4 fid.toNat⟩) (World.start s) = some ((), w) ∧
    w.out = [message RSTAT 0 (leBytes 2 stat.length ++ stat)]

/-- Sent back with a new name, the record of the fid is a rename to that name. -/
def RoundTrips (env : Env) (s : Shared) (fid : UInt32) : Prop :=
  ∀ e stat w, s.state.fids.lookup fid = some e → Stats env s fid stat w → ∀ name, name ≠ "" →
    routed env (serveMessage ⟨TWSTAT, 0, wstatBody fid (replaceName stat name)⟩) w =
      [⟨.rename, e.path, asBytes (renamedPath e.path name)⟩]

/-! ## The position of the name -/

/-- The name field is complete, and the rename is to its text. -/
def FromNameField (e : FidEntry) (stat : Bytes) (req : Request) : Prop :=
  43 + uintAt 2 stat 41 ≤ stat.length ∧
    req = ⟨.rename, e.path, asBytes (renamedPath e.path (nameAt stat 41))⟩

/-- Nothing that counts as a new name stands where the parser looks for it, or the
name field is complete and has the same text. -/
def NameInPlace (e : FidEntry) (stat : Bytes) : Prop :=
  ∀ name ∈ nameIn e.path stat (statLayout stat.length).nameAt,
    43 + uintAt 2 stat 41 ≤ stat.length ∧ nameAt stat 41 = name

instance (e : FidEntry) (stat : Bytes) : Decidable (NameInPlace e stat) :=
  inferInstanceAs (Decidable (∀ name ∈ nameIn e.path stat (statLayout stat.length).nameAt,
    43 + uintAt 2 stat 41 ≤ stat.length ∧ nameAt stat 41 = name))

theorem renamedPath_injective {path a b : String} (h : renamedPath path a = renamedPath path b) :
    a = b := by
  unfold renamedPath at h
  dsimp only at h
  split at h
  · exact String.append_right_inj _ |>.mp h
  · split at h
    · exact String.append_right_inj _ |>.mp h
    · exact String.append_right_inj _ |>.mp h

/-- Where the parser looks for the name in a record of a given length. -/
theorem nameAt_eq (len : ℕ) : (statLayout len).nameAt =
    if 39 ≤ len then 39 else if 31 ≤ len then 31 else if 23 ≤ len then 23 else 19 := by
  simp only [statLayout, decide_eq_true_eq]
  repeat' split
  all_goals omega

/-- The parser finds no name in fewer bytes than it skips. -/
theorem nameIn_short {path : String} {stat : Bytes} {name : String}
    (h : name ∈ nameIn path stat (statLayout stat.length).nameAt) : 6 ≤ stat.length := by
  have hat : 19 ≤ (statLayout stat.length).nameAt := by
    rw [nameAt_eq]
    repeat' split
    all_goals omega
  unfold nameIn at h
  split at h
  · next hfits => omega
  · cases h

theorem renames_from_field_iff {e : FidEntry} {stat : Bytes} :
    (∀ req ∈ if stat.length < 6 then [] else wstatRequests e stat, req.op = .rename →
      FromNameField e stat req) ↔ NameInPlace e stat := by
  unfold wstatRequests NameInPlace
  constructor
  · intro h name hname
    have hlong := nameIn_short hname
    rw [if_neg (by omega), Option.mem_def.mp hname] at h
    obtain ⟨hfits, hreq⟩ := h _ (List.mem_singleton_self _) rfl
    have hdata := asBytes_injective (congrArg Request.data hreq)
    exact ⟨hfits, (renamedPath_injective hdata).symm⟩
  · intro h req hreq hop
    split at hreq
    · cases hreq
    · split at hreq
      · next name hname =>
          obtain ⟨hfits, htext⟩ := h name hname
          rw [List.mem_singleton.mp hreq, ← htext]
          exact ⟨hfits, rfl⟩
      · split at hreq
        · rw [List.mem_singleton.mp hreq] at hop
          cases hop
        · cases hreq

/-! ## The record of a stat sent back -/

/-- The bytes before the name field are those of the old record. -/
theorem uintAt_replaceName {stat : Bytes} (name : String) (h : 41 ≤ stat.length) :
    uintAt 2 (replaceName stat name) 39 = uintAt 2 stat 39 := by
  have hfixed : ((stat.drop 2).take 39).length = 39 := by
    rw [List.length_take, List.length_drop]
    omega
  have hat := uintAt_append 2 (leBytes 2 ((stat.drop 2).take 39 ++
    (nameField name ++ stat.drop (43 + uintAt 2 stat 41))).length) ((stat.drop 2).take 39 ++
    (nameField name ++ stat.drop (43 + uintAt 2 stat 41))) 37
  rw [leBytes_length] at hat
  have hinner : uintAt 2 ((stat.drop 2).take 39 ++
      (nameField name ++ stat.drop (43 + uintAt 2 stat 41))) 37 = uintAt 2 (stat.drop 2) 37 := by
    rw [← uintAt_prefix_eq (List.prefix_append _ _) (by rw [hfixed]),
      uintAt_prefix_eq (List.take_prefix _ _) (by rw [hfixed])]
  rw [replaceName, hat, hinner, uintAt, uintAt, List.drop_drop]

theorem statIn_wstatBody (fid : UInt32) (stat : Bytes) :
    statIn (wstatBody fid stat) = stat.take (min (stat.length % 65536) stat.length) := by
  have hbody : (wstatBody fid stat).drop 4 = leBytes 2 stat.length ++ stat :=
    List.drop_left' (leBytes_length 4 _)
  rw [statIn, hbody, List.drop_left' (leBytes_length 2 _), List.length_append, leBytes_length,
    Nat.add_sub_cancel_left, uintAt, List.drop_zero, List.take_left' (leBytes_length 2 _),
    leValue_leBytes]
  rfl

/-- Names of the same length leave the bytes in front of the name field alike. -/
theorem take_replaceName {stat : Bytes} {a b : String} (h : 41 ≤ stat.length)
    (hab : (asBytes a).length = (asBytes b).length) :
    (replaceName stat a).take 41 = (replaceName stat b).take 41 ∧
      (replaceName stat a).length = (replaceName stat b).length := by
  have hfixed : ((stat.drop 2).take 39).length = 39 := by
    rw [List.length_take, List.length_drop]
    omega
  have hfields : (nameField a).length = (nameField b).length := by
    rw [nameField, nameField, List.length_append, List.length_append, leBytes_length,
      leBytes_length, hab]
  have htake : ∀ c, (replaceName stat c).take 41 = leBytes 2 ((stat.drop 2).take 39 ++
      (nameField c ++ stat.drop (43 + uintAt 2 stat 41))).length ++ (stat.drop 2).take 39 := by
    intro c
    rw [replaceName, ← List.append_assoc]
    exact List.take_left' (by rw [List.length_append, leBytes_length, hfixed])
  constructor
  · rw [htake, htake]
    simp only [List.length_append, hfields]
  · simp only [replaceName, List.length_append, leBytes_length, hfields]

theorem found_of_renamed {e : FidEntry} {stat : Bytes} {name : String}
    (h : (if stat.length < 6 then [] else wstatRequests e stat) =
      [⟨.rename, e.path, asBytes (renamedPath e.path name)⟩]) :
    nameIn e.path stat (statLayout stat.length).nameAt = some name := by
  unfold wstatRequests at h
  split at h
  · cases h
  · split at h
    · next found hfound =>
        have hdata := asBytes_injective (congrArg Request.data (List.singleton_inj.mp h))
        rw [hfound, renamedPath_injective hdata]
    · split at h
      · cases List.singleton_inj.mp h
      · cases h

/-- A record too short for the parser to reach the name field is the same for both
names, and in a longer one the parser finds the length of the file. -/
theorem not_found_both {path : String} {stat : Bytes} (hlong : 41 ≤ stat.length)
    (hzero : uintAt 2 stat 39 = 0) {fid : UInt32}
    (h : ∀ name, name ≠ "" → nameIn path (statIn (wstatBody fid (replaceName stat name)))
      (statLayout (statIn (wstatBody fid (replaceName stat name))).length).nameAt = some name) :
    False := by
  have ha := h "a" (by decide)
  have hb := h "b" (by decide)
  obtain ⟨htake, hlength⟩ := take_replaceName hlong (show (asBytes "a").length = (asBytes "b").length
    from by decide)
  rw [statIn_wstatBody] at ha hb
  rw [hlength] at ha
  by_cases hreach : 39 ≤ ((replaceName stat "b").take
      (min ((replaceName stat "b").length % 65536) (replaceName stat "b").length)).length
  · rw [nameAt_eq, if_pos hreach] at hb
    unfold nameIn at hb
    split at hb
    · next hfits =>
        have hvalue := uintAt_replaceName "b" hlong
        rw [uintAt_prefix_eq (List.take_prefix _ _) hfits.1, hvalue, hzero] at hfits
        omega
    · cases hb
  · have hless : min ((replaceName stat "b").length % 65536) (replaceName stat "b").length ≤ 41 := by
      rw [List.length_take] at hreach
      omega
    have hsame : (replaceName stat "a").take
        (min ((replaceName stat "b").length % 65536) (replaceName stat "b").length) =
        (replaceName stat "b").take
          (min ((replaceName stat "b").length % 65536) (replaceName stat "b").length) := by
      have hcut := congrArg (List.take (min ((replaceName stat "b").length % 65536)
        (replaceName stat "b").length)) htake
      rwa [List.take_take, List.take_take, min_eq_left hless] at hcut
    rw [hsame, hb] at ha
    exact absurd (Option.some.inj ha) (by decide)

/-- The record of a stat with a new name in it is no rename to that name. -/
theorem not_roundTrips {env : Env} {s : Shared} {fid : UInt32} {e : FidEntry} {resp : Response}
    (he : s.state.fids.lookup fid = some e)
    (hresp : env.router ⟨.getAttr, e.path, []⟩ = .reply (.ok resp))
    (hlen : resp.data.length < 2 ^ 48) : ¬ RoundTrips env s fid := by
  intro h
  obtain ⟨now, w, hserve, hshared, hout⟩ := served_stat (w := World.start s) he hresp
  have hstats : Stats env s fid _ w := ⟨hserve, hout⟩
  have hlong : 41 ≤ (statBytes now (statName e.path) ⟨qidType e.isDir, 0, e.qid⟩
      resp.data.length e.isDir).length := by
    rw [statBytes_length]
    omega
  apply not_found_both hlong (uintAt_early now _ _ _ hlen)
  intro name hname
  have hrouted := h e _ w he hstats name hname
  have hfid : ∀ stat, fidAt (wstatBody fid stat) 0 = fid := fun stat => fidAt_leBytes fid _
  have hsix : ∀ stat, ¬ (wstatBody fid stat).length < 6 := by
    intro stat
    rw [wstatBody, List.length_append, List.length_append, leBytes_length, leBytes_length]
    omega
  rw [routed_wstat, hshared, if_neg (hsix _), hfid] at hrouted
  rw [show (World.start s).shared.state.fids.lookup fid = some e from he] at hrouted
  exact found_of_renamed hrouted

/-- Every getattr is answered with no attributes. -/
def attributeless : Env := ⟨fun _ => .reply (.ok ⟨[], none, false⟩), fun _ => 0⟩

/-- Fid 0 names the root. -/
def rootBound : Shared := ⟨NinepState.new.setFid 0 0 "/" true, 8192⟩

/-- A record of 22 bytes, cut before its mode, with a counted `b` at its end. -/
def cutRecord : Bytes := List.replicate 19 0 ++ [1, 0, 98]

end Pinhead.WstatParsing
