import Pinhead.Base64Decoding
import Pinhead.TextWords

/-!
# Key files as they are written

OpenSSH writes a key as base64 of a blob: the name of the algorithm and the key, each behind
its length. For an ed25519 key the blob has 51 bytes. The server takes what a line spells for
the 32 bytes of the key itself, so it passes over every key that is written this way, and
says nothing.
-/
namespace Pinhead.AuthorizedKeys
open ByteStrings TextWords Base64Texts Base64Decoding SshAuth

/-! ## Lines -/

/-- A byte string behind its length, the highest byte first. -/
def sshString (bs : Bytes) : Bytes := (leBytes 4 bs.length).reverse ++ bs

def keyBlob (key : Bytes) : Bytes := sshString (asBytes "ssh-ed25519") ++ sshString key

/-- The lines that a key file may have, and the key on each. -/
inductive Spells (D : Ed25519) : String → Option D.VerifyingKey → Prop
  | blank {line : String} : Blank line.toList → Spells D line none
  | comment {line : String} {before text : List Char} :
      line.toList = before ++ '#' :: text → Blank before → Spells D line none
  | other {line kind : String} {words : List String} :
      splitWhitespace line = kind :: words → kind ≠ "ssh-ed25519" → Spells D line none
  | ed25519 {key : Bytes} {vk : D.VerifyingKey} {comment : String} :
      key.length = 32 → D.fromBytes key = some vk → (comment = "" ∨ ∃ text, comment = " " ++ text) →
      Spells D ("ssh-ed25519" ++ " " ++ (encodePadded (keyBlob key) ++ comment)) (some vk)

theorem keyBlob_length {key : Bytes} (h : key.length = 32) : (keyBlob key).length = 51 := by
  have hname : (asBytes "ssh-ed25519").length = 11 := by decide
  simp [keyBlob, sshString, hname, h]

/-! ## What the server makes of them -/

theorem solid_encodePadded (bs : Bytes) : Solid (encodePadded bs).toList := by
  have hsolid : Solid alphabet := solid_of_all (by decide)
  intro c hc
  rw [encodePadded, String.toList_append, encode, padding, String.toList_ofList,
    String.toList_ofList, List.mem_append] at hc
  rcases hc with hc | hc
  · obtain ⟨v, hv, rfl⟩ := List.mem_map.mp hc
    exact hsolid _ (place_symbol (sextets_lt bs v hv)).1
  · rw [List.eq_of_mem_replicate hc]
    decide

theorem encodePadded_ne {bs : Bytes} (h : bs ≠ []) : encodePadded bs ≠ "" := by
  intro hempty
  have hdecoded := decode_encodePadded bs
  rw [hempty] at hdecoded
  exact h (Except.ok.inj hdecoded).symm

/-- The blob is found on its line. -/
theorem listedBytes_key {key : Bytes} (hkey : key.length = 32) {comment : String}
    (hcomment : comment = "" ∨ ∃ text, comment = " " ++ text) :
    listedBytes ("ssh-ed25519" ++ " " ++ (encodePadded (keyBlob key) ++ comment)) =
      some (keyBlob key) := by
  have hblob : keyBlob key ≠ [] := fun h => by simpa [h] using keyBlob_length hkey
  have hsolid := solid_encodePadded (keyBlob key)
  have hne := encodePadded_ne hblob
  have hencoded : ∃ words, splitWhitespace (encodePadded (keyBlob key) ++ comment) =
      encodePadded (keyBlob key) :: words := by
    rcases hcomment with rfl | ⟨text, rfl⟩
    · rw [String.append_empty, splitWhitespace_word hsolid hne]
      exact ⟨[], rfl⟩
    · rw [← String.append_assoc, splitWhitespace_cons hsolid hne]
      exact ⟨_, rfl⟩
  obtain ⟨words, hwords⟩ := hencoded
  have hname : Solid "ssh-ed25519".toList := solid_of_all (by decide)
  generalize hline : "ssh-ed25519" ++ " " ++ (encodePadded (keyBlob key) ++ comment) = line
  have hkind : splitWhitespace (trim line) =
      "ssh-ed25519" :: encodePadded (keyBlob key) :: words := by
    rw [splitWhitespace_trim, ← hline, splitWhitespace_cons hname (by decide), hwords]
  have hhead : (trim line).toList.head? = some 's' := by
    have hchars : line.toList = 's' :: ("sh-ed25519 ".toList ++
        (encodePadded (keyBlob key) ++ comment).toList) := by
      rw [← hline, String.toList_append]
      rfl
    exact @trim_head 's' line [] _ hchars nofun (by decide)
  have hempty : trim line ≠ "" := by
    intro h
    rw [h] at hhead
    cases hhead
  rw [listedBytes, if_neg (by simp [hempty, hhead]), hkind]
  dsimp only
  rw [if_neg (by simp), simpleBase64Decode_eq, decode_encodePadded]
  rfl

section
variable {D : Ed25519}

/-- No line gives a key, whatever is on it. -/
theorem loadLine_spelled {line : String} {key : Option D.VerifyingKey} (h : Spells D line key) :
    loadLine D line = none := by
  cases h with
  | blank hblank =>
      rw [loadLine, listedBytes, trim_blank hblank]
      rfl
  | comment hline hbefore =>
      have hhead := trim_head hline hbefore (by decide)
      simp [loadLine, listedBytes, hhead]
  | @other _ kind words hwords hkind =>
      rw [loadLine, listedBytes, splitWhitespace_trim, hwords]
      cases words with
      | nil => simp
      | cons encoded words => simp [hkind]
  | ed25519 hkey hvk hcomment =>
      rw [loadLine, listedBytes_key hkey hcomment]
      simp [keyBlob_length hkey]

theorem loadAuthorizedKeys_spelled {read : String → Except String String} {path content : String}
    {keys : List (Option D.VerifyingKey)} (hread : read path = .ok content)
    (hlines : List.Forall₂ (Spells D) (lines content) keys) :
    loadAuthorizedKeys D read path = .ok [] := by
  have hnone : ∀ {ls : List String} {keys : List (Option D.VerifyingKey)},
      List.Forall₂ (Spells D) ls keys → ls.filterMap (loadLine D) = [] := by
    intro ls keys h
    induction h with
    | nil => rfl
    | cons hline _ ih => rw [List.filterMap_cons_none (loadLine_spelled hline), ih]
  rw [loadAuthorizedKeys, hread]
  exact congrArg Except.ok (hnone hlines)

/-- The keys of a file come back exactly if there are none. -/
theorem authorized_keys_iff {read : String → Except String String} {path content : String}
    {keys : List (Option D.VerifyingKey)} (hread : read path = .ok content)
    (hlines : List.Forall₂ (Spells D) (lines content) keys) :
    loadAuthorizedKeys D read path = .ok (keys.filterMap id) ↔ ∀ key ∈ keys, key = none := by
  rw [loadAuthorizedKeys_spelled hread hlines, Except.ok.injEq, eq_comm, List.filterMap_eq_nil_iff]
  rfl

end

/-- Every 32 bytes are a key. -/
def anyKey : Ed25519 where
  VerifyingKey := Bytes
  fromBytes bs := if bs.length = 32 then some bs else none
  toBytes bs := bs
  toBytes_fromBytes h := by
    split at h
    · exact (Option.some.inj h).symm
    · cases h

/-- A file with a comment and a key of another type. -/
theorem authorized_keys_iff_rsa : loadAuthorizedKeys anyKey
    (fun _ => .ok "# keys\nssh-rsa AAAAB3NzaC1yc2E= root\n") "authorized_keys" = .ok [] := by
  have hlines : lines "# keys\nssh-rsa AAAAB3NzaC1yc2E= root\n" =
      ["# keys", "ssh-rsa AAAAB3NzaC1yc2E= root"] := by decide
  have hspells : List.Forall₂ (Spells anyKey) (lines "# keys\nssh-rsa AAAAB3NzaC1yc2E= root\n")
      [none, none] := by
    rw [hlines]
    have hcomment : Spells anyKey "# keys" none := @Spells.comment _ _ [] _ rfl nofun
    have hother : Spells anyKey "ssh-rsa AAAAB3NzaC1yc2E= root" none :=
      @Spells.other _ _ "ssh-rsa" ["AAAAB3NzaC1yc2E=", "root"] (by decide) (by decide)
    exact .cons hcomment (.cons hother .nil)
  exact (authorized_keys_iff rfl hspells).mpr (by simp)

def sevens : Bytes := List.replicate 32 7

/-- One key, as OpenSSH writes it. -/
def standardLine : String := "ssh-ed25519" ++ " " ++ (encodePadded (keyBlob sevens) ++ "")

theorem spells_standardLine : List.Forall₂ (Spells anyKey) (lines standardLine) [some sevens] := by
  have hlines : lines standardLine = [standardLine] := by decide +kernel
  rw [hlines]
  exact .cons (.ed25519 rfl rfl (.inl rfl)) .nil

theorem standard_key_passed_over :
    ¬ ∀ (D : Ed25519) (read : String → Except String String) (path content : String)
      (keys : List (Option D.VerifyingKey)), read path = .ok content →
      List.Forall₂ (Spells D) (lines content) keys →
      loadAuthorizedKeys D read path = .ok (keys.filterMap id) := by
  intro h
  have hloaded := h anyKey (fun _ => .ok standardLine) "keys" _ _ rfl spells_standardLine
  have hempty := @loadAuthorizedKeys_spelled anyKey (fun _ => .ok standardLine) "keys" _ _ rfl
    spells_standardLine
  cases hempty.symm.trans hloaded

end Pinhead.AuthorizedKeys
