import Pinhead.ByteStrings

/-!
# Authentication of SSH sessions

The server loads its trusted keys once, from the lines of an authorized_keys
file. A file that cannot be read counts as an empty one, and a line that is not a
key is skipped. Each session answers the authentication callbacks from the three
kinds of credentials it was given; every callback also accepts when the
credentials of its own kind are all absent.

The signature scheme is a parameter: which byte strings are keys is left open,
and a key gives back the bytes it was made from. The SSH library may call the
callbacks in any order and any number of times.
-/
namespace Pinhead.SshAuth
open ByteStrings

/-! ## Key files -/

structure Ed25519 where
  VerifyingKey : Type
  fromBytes : Bytes → Option VerifyingKey
  toBytes : VerifyingKey → Bytes
  toBytes_fromBytes : ∀ {bs : Bytes} {vk : VerifyingKey}, fromBytes bs = some vk → toBytes vk = bs

def base64Alphabet : Bytes :=
  asBytes "ABCDEFGHIJKLMNOPQRSTUVWXYZabcdefghijklmnopqrstuvwxyz0123456789+/"

/-- `buf` holds the low `bits` bits that have not been written out yet. -/
def decodeBase64 (buf bits : ℕ) : Bytes → Except String Bytes
  | [] => .ok []
  | c :: cs =>
      if c = 61 then .ok []
      else
        match base64Alphabet.idxOf? c with
        | none => .error "invalid base64"
        | some val =>
            let buf := buf * 64 + val
            let bits := bits + 6
            if bits ≥ 8 then do
              let rest ← decodeBase64 (buf % 2 ^ (bits - 8)) (bits - 8) cs
              pure (UInt8.ofNat (buf / 2 ^ (bits - 8)) :: rest)
            else decodeBase64 buf bits cs

def simpleBase64Decode (input : String) : Except String Bytes := decodeBase64 0 0 (asBytes input)

/-- The key bytes that a line of the file spells, whether or not they are a key. -/
def listedBytes (line : String) : Option Bytes :=
  let line := trim line
  if line = "" ∨ line.toList.head? = some '#' then none
  else
    match splitWhitespace line with
    | kind :: encoded :: _ =>
        if kind ≠ "ssh-ed25519" then none else (simpleBase64Decode encoded).toOption
    | _ => none

example : listedBytes "ssh-ed25519\tWGZmZmZmZmZmZmZmZmZmZmZmZmZmZmZmZmZmZmZmZmY= alice " =
    some (0x58 :: List.replicate 31 0x66) := by decide +kernel

section
variable (D : Ed25519)

def loadLine (line : String) : Option D.VerifyingKey :=
  match listedBytes line with
  | some bs => if bs.length = 32 then D.fromBytes bs else none
  | none => none

/-- `read` gives the text of a file or the reason why it cannot be read. -/
def loadAuthorizedKeys (read : String → Except String String) (path : String) :
    Except String (List D.VerifyingKey) :=
  match read path with
  | .ok content => .ok ((lines content).filterMap (loadLine D))
  | .error e => .error ("cannot read " ++ path ++ ": " ++ e)

/-! ## Sessions -/

structure SshfsConfig where
  password : Option String
  authorizedKeysPath : Option String
  userpasswds : List (String × String)

structure SshServer where
  password : Option String
  authorizedKeys : List D.VerifyingKey
  userpasswds : List (String × String)

structure SshSession where
  authorizedKeys : List D.VerifyingKey
  password : Option String
  userpasswds : List (String × String)

/-- An unreadable key file leaves the list of keys empty. -/
def serve (read : String → Except String String) (config : SshfsConfig) : SshServer D where
  password := config.password
  authorizedKeys :=
    match config.authorizedKeysPath with
    | some path => ((loadAuthorizedKeys D read path).toOption).getD []
    | none => []
  userpasswds := config.userpasswds

def SshServer.newClient (server : SshServer D) : SshSession D :=
  ⟨server.authorizedKeys, server.password, server.userpasswds⟩

/-- Keys of other algorithms reach the callbacks too. -/
inductive PublicKey where
  | ed25519 (bytes : { bs : Bytes // bs.length = 32 })
  | other (algorithm : String)

inductive Auth where
  | accept
  | reject
  deriving DecidableEq, Repr

inductive Attempt where
  | none (user : String)
  | password (user password : String)
  | publickeyOffered (user : String) (key : PublicKey)
  | publickey (user : String) (key : PublicKey)

namespace SshSession
variable {D}

def authNone (_ : SshSession D) (_user : String) : Auth := .reject

def authPassword (s : SshSession D) (user password : String) : Auth :=
  let ok :=
    match s.password with
    | some expected =>
        if password = expected then true
        else s.userpasswds.any fun up => up.1 == user && up.2 == password
    | none => s.userpasswds.any fun up => up.1 == user && up.2 == password
  if ok || (s.password.isNone && s.userpasswds.isEmpty) then .accept else .reject

def keyIsTrusted (s : SshSession D) : PublicKey → Bool
  | .ed25519 bytes => s.authorizedKeys.any fun vk => D.toBytes vk == bytes.val
  | .other _ => false

def authPublickeyOffered (s : SshSession D) (_user : String) (key : PublicKey) : Auth :=
  if s.keyIsTrusted key || s.authorizedKeys.isEmpty then .accept else .reject

def authPublickey (s : SshSession D) (_user : String) (key : PublicKey) : Auth :=
  if s.keyIsTrusted key || s.authorizedKeys.isEmpty then .accept else .reject

/-- One callback; none of them changes the session. -/
def callback (s : SshSession D) : Attempt → Auth × SshSession D
  | .none user => (s.authNone user, s)
  | .password user password => (s.authPassword user password, s)
  | .publickeyOffered user key => (s.authPublickeyOffered user key, s)
  | .publickey user key => (s.authPublickey user key, s)

/-- The attempts of one session, each with its answer. -/
def attempts (s : SshSession D) : List Attempt → List (Attempt × Auth)
  | [] => []
  | a :: as => (a, (s.callback a).1) :: attempts (s.callback a).2 as

end SshSession

/-! ## Soundness -/

def SshfsConfig.Configured (config : SshfsConfig) : Prop :=
  config.password.isSome ∨ config.userpasswds ≠ [] ∨ config.authorizedKeysPath.isSome

/-- The file named by the configuration can be read and one of its lines spells
the bytes. -/
def Listed (read : String → Except String String) (config : SshfsConfig) (bs : Bytes) : Prop :=
  ∃ path content line, config.authorizedKeysPath = some path ∧ read path = .ok content ∧
    line ∈ lines content ∧ listedBytes line = some bs

/-- What an attempt may be accepted for. -/
def Presents (read : String → Except String String) (config : SshfsConfig) : Attempt → Prop
  | .none _ => False
  | .password user password =>
      config.password = some password ∨ (user, password) ∈ config.userpasswds
  | .publickeyOffered _ (.ed25519 bytes) | .publickey _ (.ed25519 bytes) =>
      Listed read config bytes.val
  | .publickeyOffered _ (.other _) | .publickey _ (.other _) => False

/-- In no sequence of attempts is one accepted that presents no credential. -/
def Sound (read : String → Except String String) (config : SshfsConfig) : Prop :=
  ∀ (as : List Attempt) (a : Attempt),
    (a, .accept) ∈ (serve D read config).newClient.attempts as → Presents read config a

variable {D}

theorem attempts_eq (s : SshSession D) (as : List Attempt) :
    s.attempts as = as.map fun a => (a, (s.callback a).1) := by
  induction as with
  | nil => rfl
  | cons a as ih =>
      have hsame : (s.callback a).2 = s := by cases a <;> rfl
      rw [SshSession.attempts, hsame, ih, List.map_cons]

/-- Whole sequences reduce to single attempts. -/
theorem sound_iff (read : String → Except String String) (config : SshfsConfig) :
    Sound D read config ↔ ∀ a, ((serve D read config).newClient.callback a).1 = .accept →
      Presents read config a := by
  constructor
  · intro h a ha
    apply h [a] a
    simp [attempts_eq, ha]
  · intro h as a ha
    rw [attempts_eq] at ha
    obtain ⟨b, _, heq⟩ := List.mem_map.mp ha
    obtain ⟨rfl, hb⟩ := Prod.mk.inj heq
    exact h b hb

theorem loadLine_eq_some {line : String} {vk : D.VerifyingKey} :
    loadLine D line = some vk ↔
      ∃ bs, listedBytes line = some bs ∧ bs.length = 32 ∧ D.fromBytes bs = some vk := by
  unfold loadLine
  cases listedBytes line with
  | none => simp
  | some bs => simp

/-- The trusted keys are the lines that spell one, if the file can be read. -/
theorem mem_authorizedKeys {read : String → Except String String} {config : SshfsConfig}
    {vk : D.VerifyingKey} :
    vk ∈ (serve D read config).authorizedKeys ↔
      ∃ path content line bs, config.authorizedKeysPath = some path ∧
        read path = .ok content ∧ line ∈ lines content ∧ listedBytes line = some bs ∧
        bs.length = 32 ∧ D.fromBytes bs = some vk := by
  unfold serve
  cases config.authorizedKeysPath with
  | none => simp
  | some path =>
      cases hread : read path with
      | error e => simp [loadAuthorizedKeys, hread, Except.toOption]
      | ok content =>
          simp [loadAuthorizedKeys, hread, Except.toOption, loadLine_eq_some]

theorem authPassword_accept (s : SshSession D) (user password : String) :
    s.authPassword user password = .accept ↔
      s.password = some password ∨ (user, password) ∈ s.userpasswds ∨
        s.password = none ∧ s.userpasswds = [] := by
  have hany : (s.userpasswds.any fun up => up.1 == user && up.2 == password) = true ↔
      (user, password) ∈ s.userpasswds := by
    simp [List.any_eq_true]
  unfold SshSession.authPassword
  rw [← hany]
  generalize (s.userpasswds.any fun up => up.1 == user && up.2 == password) = listed
  cases s.password with
  | none => cases listed <;> simp
  | some expected =>
      by_cases hsame : password = expected
      · simp [hsame]
      · cases listed <;> simp [hsame, Ne.symm hsame]

/-- Both public-key callbacks give the same answer. -/
theorem authPublickey_accept (s : SshSession D) (user : String) (key : PublicKey) :
    s.authPublickey user key = .accept ↔ s.keyIsTrusted key = true ∨ s.authorizedKeys = [] := by
  unfold SshSession.authPublickey
  cases s.keyIsTrusted key <;> simp

theorem keyIsTrusted_listed {read : String → Except String String} {config : SshfsConfig}
    {bytes : { bs : Bytes // bs.length = 32 }}
    (h : (serve D read config).newClient.keyIsTrusted (.ed25519 bytes) = true) :
    Listed read config bytes.val := by
  obtain ⟨vk, hvk, hbytes⟩ := List.any_eq_true.mp h
  obtain ⟨path, content, line, bs, hpath, hread, hline, hlisted, _, hfrom⟩ :=
    mem_authorizedKeys.mp hvk
  have hsame : bs = bytes.val := (D.toBytes_fromBytes hfrom).symm.trans (by simpa using hbytes)
  exact ⟨path, content, line, hpath, hread, hline, hsame ▸ hlisted⟩

/-- Some line of the configured file is a key that the server trusts. -/
def KeyConfigured (D : Ed25519) (read : String → Except String String) (config : SshfsConfig) :
    Prop :=
  ∃ path content line bs, config.authorizedKeysPath = some path ∧ read path = .ok content ∧
    line ∈ lines content ∧ listedBytes line = some bs ∧ bs.length = 32 ∧
    (D.fromBytes bs).isSome

theorem keyConfigured_iff (read : String → Except String String) (config : SshfsConfig) :
    KeyConfigured D read config ↔ (serve D read config).authorizedKeys ≠ [] := by
  constructor
  · rintro ⟨path, content, line, bs, hpath, hread, hline, hlisted, hlen, hkey⟩
    obtain ⟨vk, hvk⟩ := Option.isSome_iff_exists.mp hkey
    have hmem : vk ∈ (serve D read config).authorizedKeys :=
      mem_authorizedKeys.mpr ⟨path, content, line, bs, hpath, hread, hline, hlisted, hlen, hvk⟩
    exact List.ne_nil_of_mem hmem
  · intro hne
    obtain ⟨vk, hmem⟩ := List.exists_mem_of_ne_nil _ hne
    obtain ⟨path, content, line, bs, hpath, hread, hline, hlisted, hlen, hvk⟩ :=
      mem_authorizedKeys.mp hmem
    exact ⟨path, content, line, bs, hpath, hread, hline, hlisted, hlen, by simp [hvk]⟩

/-- Which kinds of callbacks can be talked into accepting nothing. -/
theorem callback_presents {read : String → Except String String} {config : SshfsConfig}
    (hpassword : config.password.isSome ∨ config.userpasswds ≠ [])
    (hkey : (serve D read config).authorizedKeys ≠ []) (a : Attempt)
    (h : ((serve D read config).newClient.callback a).1 = .accept) : Presents read config a := by
  have hpublic : ∀ user key, (serve D read config).newClient.authPublickey user key = .accept →
      Presents read config (.publickey user key) := by
    intro user key haccept
    rcases (authPublickey_accept _ _ _).mp haccept with htrusted | hempty
    · cases key with
      | ed25519 bytes => exact keyIsTrusted_listed htrusted
      | other algorithm => cases htrusted
    · exact absurd hempty hkey
  cases a with
  | none user => cases h
  | password user password =>
      rcases (authPassword_accept _ _ _).mp h with hglobal | huser | ⟨hnone, hnil⟩
      · exact .inl hglobal
      · exact .inr huser
      · have hnone' : config.password = none := hnone
        have hnil' : config.userpasswds = [] := hnil
        simp [hnone', hnil'] at hpassword
  | publickeyOffered user key =>
      have hoffered := hpublic user key h
      cases key <;> exact hoffered
  | publickey user key => exact hpublic user key h

/-- A session is sound exactly when a password of either kind and a key are both
there to check an attempt against, whatever else is configured. -/
theorem auth_sound_iff (D : Ed25519) (read : String → Except String String)
    (config : SshfsConfig) :
    Sound D read config ↔
      (config.password.isSome ∨ config.userpasswds ≠ []) ∧ KeyConfigured D read config := by
  rw [sound_iff, keyConfigured_iff]
  constructor
  · intro hsound
    have hpassword : config.password.isSome ∨ config.userpasswds ≠ [] := by
      by_contra hnone
      have hglobal : config.password = none := by
        cases h : config.password with
        | none => rfl
        | some expected => exact absurd (.inl (by simp [h])) hnone
      have huser : config.userpasswds = [] := by
        by_contra h
        exact hnone (.inr h)
      have haccept : ((serve D read config).newClient.callback (.password "" "")).1 = .accept :=
        (authPassword_accept _ _ _).mpr (.inr (.inr ⟨hglobal, huser⟩))
      have hpresents := hsound _ haccept
      simp [Presents, hglobal, huser] at hpresents
    have hkey : (serve D read config).authorizedKeys ≠ [] := by
      intro hempty
      have haccept : ((serve D read config).newClient.callback
          (.publickey "" (.other "ssh-rsa"))).1 = .accept :=
        (authPublickey_accept _ "" _).mpr (.inr hempty)
      exact hsound _ haccept
    exact ⟨hpassword, hkey⟩
  · rintro ⟨hpassword, hkey⟩ a haccept
    exact callback_presents hpassword hkey a haccept

/-- A server with a global password and no key file lets in any key. -/
theorem password_only_accepts_any_key :
    ¬ ∀ (D : Ed25519) (read : String → Except String String) (config : SshfsConfig),
      config.Configured → Sound D read config := by
  intro h
  have hsound := h ⟨Bytes, some, id, fun hbs => (Option.some.inj hbs).symm⟩
    (fun _ => .error "no such file") ⟨some "hunter2", none, []⟩ (.inl rfl)
  have hpresents := hsound
    [.publickey "alice" (.ed25519 ⟨List.replicate 32 7, rfl⟩)] _ (List.mem_singleton_self _)
  obtain ⟨path, _, _, hpath, _⟩ := hpresents
  cases hpath

end

end Pinhead.SshAuth
