import LedgerLens.OracleAggregator
import LedgerLens.Sha256
import LedgerLens.TextBytes

/-!
# Canonical oracle messages

The messages that `detection/oracle_node.py` signs, before their hash: the score submission, which
the contract builds again from its own arguments, and the heartbeat. Checked integers stand for
Python's; a flag is written as one byte.
-/
namespace OracleMessages

open ByteStrings FallibleRuns TextBytes
open OracleAggregator (ADDRESS_STRKEY_LEN Host Submission Symbol canonicalPreimage)

def ORACLE_DOMAIN_SEPARATOR : List UInt8 := utf8 "LedgerLens-Oracle-v2"
def SOROBAN_SYMBOL_SCVAL_TYPE : ℤ := 15
def MAX_SYMBOL_LENGTH : ℕ := 32
def HEARTBEAT_DOMAIN_SEPARATOR : List UInt8 := utf8 "LedgerLens-Oracle-Heartbeat-v1"

inductive PyError where
  | valueError (text : String)
  | unicodeEncodeError
  | structError
  deriving DecidableEq, Repr

/-- `struct.pack` of one unsigned integer, most significant byte first. -/
def pack (width : ℕ) (v : ℤ) : Except PyError (List UInt8) :=
  if 0 ≤ v ∧ v < 256 ^ width then pure (toBigEndian width v.toNat) else throw .structError

def bar : List UInt8 := utf8 "|"

structure ScoreFields where
  wallet : String
  assetPair : String
  score : ℤ
  benfordFlag : Bool
  mlFlag : Bool
  timestamp : ℤ
  confidence : ℤ
  modelVersion : ℤ
  deriving DecidableEq, Repr

def validatePayload (score confidence timestamp modelVersion : ℤ) : Except PyError Unit :=
  if ¬ (0 ≤ score ∧ score ≤ 100) then throw (.valueError "score must be between 0 and 100")
  else if ¬ (0 ≤ confidence ∧ confidence ≤ 100) then
    throw (.valueError "confidence must be between 0 and 100")
  else if ¬ (0 ≤ timestamp ∧ timestamp ≤ 2 ^ 64 - 1) then
    throw (.valueError "timestamp must fit u64")
  else if ¬ (0 ≤ modelVersion ∧ modelVersion ≤ 2 ^ 32 - 1) then
    throw (.valueError "model_version must fit u32")
  else pure ()

/-- An ASCII letter or digit, or the underscore. -/
def isSymbolByte (b : UInt8) : Bool := (Char.ofNat b.toNat).isAlphanum || b == 95

def symbolXdr (value : String) : Except PyError (List UInt8) :=
  match ascii value with
  | none => throw .unicodeEncodeError
  | some encoded =>
    if MAX_SYMBOL_LENGTH < encoded.length ∨ encoded = [] ∨ ¬ encoded.all isSymbolByte then
      throw (.valueError ("asset_pair must be a non-empty Soroban Symbol " ++
        "(ASCII alphanumeric/underscore, at most 32 bytes)"))
    else do
      let padding := List.replicate ((-(encoded.length : ℤ)) % 4).toNat 0
      return (← pack 4 SOROBAN_SYMBOL_SCVAL_TYPE) ++ (← pack 4 encoded.length) ++ encoded ++
        padding

def scorePreimage (f : ScoreFields) : Except PyError (List UInt8) := do
  validatePayload f.score f.confidence f.timestamp f.modelVersion
  return ORACLE_DOMAIN_SEPARATOR ++ utf8 f.wallet ++ bar ++ (← symbolXdr f.assetPair) ++ bar ++
    (← pack 4 f.score) ++ [f.benfordFlag.toUInt8] ++ [f.mlFlag.toUInt8] ++
    (← pack 8 f.timestamp) ++ (← pack 4 f.confidence) ++ (← pack 4 f.modelVersion)

def canonicalMessage (sha256 : List UInt8 → BytesN 32) (f : ScoreFields) :
    Except PyError (List UInt8) := do
  return (sha256 (← scorePreimage f)).bytes

structure Heartbeat where
  name : String
  publicKey : BytesN 32
  timestamp : ℤ
  deriving DecidableEq

/-- What `sign_heartbeat` hashes, after its check of the timestamp. -/
def heartbeatPreimage (h : Heartbeat) : Except PyError (List UInt8) :=
  if ¬ (0 ≤ h.timestamp ∧ h.timestamp ≤ 2 ^ 64 - 1) then
    throw (.valueError "timestamp must fit u64")
  else do
    return HEARTBEAT_DOMAIN_SEPARATOR ++ utf8 h.name ++ bar ++ h.publicKey.bytes ++ bar ++
      (← pack 8 h.timestamp)

def Representable (s : Symbol) : Prop :=
  ∃ l, ascii s.name = some l ∧ l.length ≤ MAX_SYMBOL_LENGTH ∧ l.all isSymbolByte = true

/-- XDR of the symbol as an `ScVal`: its tag, its length, its text, and zeros to a multiple of
four. -/
def scVal (s : Symbol) : List UInt8 :=
  let text := utf8 s.name
  toBigEndian 4 15 ++ toBigEndian 4 text.length ++ text ++
    List.replicate ((4 - text.length % 4) % 4) 0

def ScoreFields.submission (f : ScoreFields) : Submission where
  wallet := ⟨f.wallet⟩
  assetPair := ⟨f.assetPair⟩
  score := .ofNat f.score.toNat
  benfordFlag := f.benfordFlag
  mlFlag := f.mlFlag
  timestamp := .ofNat f.timestamp.toNat
  confidence := .ofNat f.confidence.toNat
  modelVersion := .ofNat f.modelVersion.toNat

def numbers (score : ℕ) (benfordFlag mlFlag : Bool) (timestamp confidence modelVersion : ℕ) :
    List UInt8 :=
  toBigEndian 4 score ++ [benfordFlag.toUInt8, mlFlag.toUInt8] ++ toBigEndian 8 timestamp ++
    toBigEndian 4 confidence ++ toBigEndian 4 modelVersion

def layout (wallet symbol numbers : List UInt8) : List UInt8 :=
  ORACLE_DOMAIN_SEPARATOR ++ (wallet ++ bar ++ symbol ++ bar ++ numbers)

theorem bar_eq : bar = [124] := utf8_of_ascii (by decide)

theorem pack_eq_ok {width : ℕ} {v : ℤ} {l : List UInt8} :
    pack width v = .ok l ↔ (0 ≤ v ∧ v < 256 ^ width) ∧ toBigEndian width v.toNat = l := by
  unfold pack
  split_ifs with h
  · simp [h]
  · simp [h]

theorem validatePayload_eq_ok {score confidence timestamp modelVersion : ℤ} :
    validatePayload score confidence timestamp modelVersion = .ok () ↔
      (0 ≤ score ∧ score ≤ 100) ∧ (0 ≤ confidence ∧ confidence ≤ 100) ∧
      (0 ≤ timestamp ∧ timestamp ≤ 2 ^ 64 - 1) ∧
      (0 ≤ modelVersion ∧ modelVersion ≤ 2 ^ 32 - 1) := by
  simp only [validatePayload, guard_eq_ok, pure_eq_ok, not_not, and_true]

theorem symbolXdr_eq_ok {value : String} {l : List UInt8} (h : symbolXdr value = .ok l) :
    Representable ⟨value⟩ ∧ l = scVal ⟨value⟩ := by
  unfold symbolXdr at h
  cases hascii : ascii value with
  | none =>
    rw [hascii] at h
    cases h
  | some encoded =>
    rw [hascii] at h
    obtain ⟨hok, h⟩ := guard_eq_ok.mp h
    simp only [not_or, not_lt, not_not] at hok
    obtain ⟨hlen, -, hall⟩ := hok
    refine ⟨⟨encoded, hascii, hlen, hall⟩, ?_⟩
    obtain ⟨tag, htag, h⟩ := bind_eq_ok.mp h
    obtain ⟨length, hlength, h⟩ := bind_eq_ok.mp h
    obtain ⟨-, rfl⟩ := pack_eq_ok.mp htag
    obtain ⟨-, rfl⟩ := pack_eq_ok.mp hlength
    obtain rfl := pure_eq_ok.mp h
    have hpad : ((-(encoded.length : ℤ)) % 4).toNat = (4 - encoded.length % 4) % 4 := by omega
    simp only [scVal, utf8_of_ascii hascii, hpad]
    rfl

theorem bar_notMem_scVal {s : Symbol} (h : Representable s) : 124 ∉ scVal s := by
  obtain ⟨l, hascii, hlen, hall⟩ := h
  have htag : (124 : UInt8) ∉ toBigEndian 4 15 := by decide
  have hlength : ∀ n ≤ MAX_SYMBOL_LENGTH, (124 : UInt8) ∉ toBigEndian 4 n := by decide
  have htext : (124 : UInt8) ∉ l := by
    intro hmem
    exact absurd (List.all_eq_true.mp hall _ hmem) (by decide)
  have hpad (n : ℕ) : (124 : UInt8) ∉ List.replicate n 0 := by
    intro hmem
    exact absurd (List.eq_of_mem_replicate hmem) (by decide)
  simp only [scVal, utf8_of_ascii hascii, List.mem_append, not_or]
  exact ⟨⟨⟨htag, hlength _ hlen⟩, htext⟩, hpad _⟩

theorem scVal_inj {s t : Symbol} (hs : Representable s) (ht : Representable t)
    (h : scVal s = scVal t) : s = t := by
  obtain ⟨l, hl, hlen, -⟩ := hs
  obtain ⟨m, hm, hlen', -⟩ := ht
  unfold MAX_SYMBOL_LENGTH at hlen hlen'
  simp only [scVal, utf8_of_ascii hl, utf8_of_ascii hm, List.append_assoc] at h
  have hrest := List.append_cancel_left h
  obtain ⟨hcount, hrest⟩ := List.append_inj hrest (by simp)
  have hsame : l.length = m.length := toBigEndian_inj (by omega) (by omega) hcount
  obtain ⟨hlm, -⟩ := List.append_inj hrest hsame
  obtain ⟨name⟩ := s
  obtain ⟨name'⟩ := t
  refine congrArg Symbol.mk (utf8_inj ?_)
  rw [utf8_of_ascii hl, utf8_of_ascii hm, hlm]

theorem length_numbers (score : ℕ) (benfordFlag mlFlag : Bool)
    (timestamp confidence modelVersion : ℕ) :
    (numbers score benfordFlag mlFlag timestamp confidence modelVersion).length = 22 := by
  simp [numbers]

theorem numbers_inj {score score' timestamp timestamp' confidence confidence' modelVersion
    modelVersion' : ℕ} {benfordFlag benfordFlag' mlFlag mlFlag' : Bool}
    (hscore : score < 2 ^ 32 ∧ score' < 2 ^ 32) (htime : timestamp < 2 ^ 64 ∧ timestamp' < 2 ^ 64)
    (hconf : confidence < 2 ^ 32 ∧ confidence' < 2 ^ 32)
    (hversion : modelVersion < 2 ^ 32 ∧ modelVersion' < 2 ^ 32)
    (h : numbers score benfordFlag mlFlag timestamp confidence modelVersion =
      numbers score' benfordFlag' mlFlag' timestamp' confidence' modelVersion') :
    score = score' ∧ benfordFlag = benfordFlag' ∧ mlFlag = mlFlag' ∧ timestamp = timestamp' ∧
      confidence = confidence' ∧ modelVersion = modelVersion' := by
  have flags : ∀ a b : Bool, a.toUInt8 = b.toUInt8 → a = b := by decide
  unfold numbers at h
  obtain ⟨h, h₅⟩ := List.append_inj' h (by simp)
  obtain ⟨h, h₄⟩ := List.append_inj' h (by simp)
  obtain ⟨h, h₃⟩ := List.append_inj' h (by simp)
  obtain ⟨h₁, h₂⟩ := List.append_inj' h rfl
  simp only [List.cons.injEq, and_true] at h₂
  exact ⟨toBigEndian_inj (by omega) (by omega) h₁, flags _ _ h₂.1, flags _ _ h₂.2,
    toBigEndian_inj (by omega) (by omega) h₃, toBigEndian_inj (by omega) (by omega) h₄,
    toBigEndian_inj (by omega) (by omega) h₅⟩

theorem layout_inj {wallet wallet' symbol symbol' n n' : List UInt8} (hn : n.length = n'.length)
    (hs : 124 ∉ symbol) (hs' : 124 ∉ symbol')
    (h : layout wallet symbol n = layout wallet' symbol' n') :
    wallet = wallet' ∧ symbol = symbol' ∧ n = n' := by
  have h := List.append_cancel_left h
  obtain ⟨h, hnumbers⟩ := List.append_inj' h hn
  have h := List.append_cancel_right h
  rw [bar_eq] at h
  obtain ⟨hwallet, hsymbol⟩ := append_separator_inj hs hs' h
  exact ⟨hwallet, hsymbol, hnumbers⟩

/-- What the signer accepts: numbers in their ranges and the name of a symbol. -/
structure Accepted (f : ScoreFields) : Prop where
  score : 0 ≤ f.score ∧ f.score ≤ 100
  confidence : 0 ≤ f.confidence ∧ f.confidence ≤ 100
  timestamp : 0 ≤ f.timestamp ∧ f.timestamp ≤ 2 ^ 64 - 1
  modelVersion : 0 ≤ f.modelVersion ∧ f.modelVersion ≤ 2 ^ 32 - 1
  assetPair : Representable ⟨f.assetPair⟩

theorem scorePreimage_eq_ok {f : ScoreFields} {body : List UInt8}
    (h : scorePreimage f = .ok body) :
    Accepted f ∧ body = layout (utf8 f.wallet) (scVal ⟨f.assetPair⟩)
      (numbers f.score.toNat f.benfordFlag f.mlFlag f.timestamp.toNat f.confidence.toNat
        f.modelVersion.toNat) := by
  obtain ⟨u, hvalid, h⟩ := bind_eq_ok.mp h
  obtain ⟨symbol, hsymbol, h⟩ := bind_eq_ok.mp h
  obtain ⟨score, hscore, h⟩ := bind_eq_ok.mp h
  obtain ⟨timestamp, htimestamp, h⟩ := bind_eq_ok.mp h
  obtain ⟨confidence, hconfidence, h⟩ := bind_eq_ok.mp h
  obtain ⟨modelVersion, hversion, h⟩ := bind_eq_ok.mp h
  obtain ⟨hs, hc, ht, hv⟩ := validatePayload_eq_ok.mp hvalid
  obtain ⟨hname, rfl⟩ := symbolXdr_eq_ok hsymbol
  obtain ⟨-, rfl⟩ := pack_eq_ok.mp hscore
  obtain ⟨-, rfl⟩ := pack_eq_ok.mp htimestamp
  obtain ⟨-, rfl⟩ := pack_eq_ok.mp hconfidence
  obtain ⟨-, rfl⟩ := pack_eq_ok.mp hversion
  obtain rfl := pure_eq_ok.mp h
  refine ⟨⟨hs, hc, ht, hv, hname⟩, ?_⟩
  simp only [layout, numbers, List.append_assoc, List.cons_append, List.nil_append]

theorem canonicalPreimage_eq_ok {host : Host} {c : Submission} {body : List UInt8} :
    canonicalPreimage host c = .ok body ↔
      (utf8 c.wallet.strkey).length ≤ ADDRESS_STRKEY_LEN ∧
      layout (utf8 c.wallet.strkey) (host.symbolToXdr c.assetPair)
        (numbers c.score.toNat c.benfordFlag c.mlFlag c.timestamp.toNat c.confidence.toNat
          c.modelVersion.toNat) = body := by
  have hbuffer (bytes : List UInt8) : OracleAggregator.appendString bytes c.wallet.strkey
      ADDRESS_STRKEY_LEN = if ADDRESS_STRKEY_LEN < (utf8 c.wallet.strkey).length then
        throw .stringExceedsBuffer else pure (bytes ++ utf8 c.wallet.strkey) := rfl
  have hbody : OracleAggregator.DOMAIN_SEPARATOR ++ utf8 c.wallet.strkey ++
      OracleAggregator.separator ++ host.symbolToXdr c.assetPair ++ OracleAggregator.separator ++
      toBigEndian 4 c.score.toNat ++ [c.benfordFlag.toUInt8, c.mlFlag.toUInt8] ++
      toBigEndian 8 c.timestamp.toNat ++ toBigEndian 4 c.confidence.toNat ++
      toBigEndian 4 c.modelVersion.toNat =
      layout (utf8 c.wallet.strkey) (host.symbolToXdr c.assetPair)
        (numbers c.score.toNat c.benfordFlag c.mlFlag c.timestamp.toNat c.confidence.toNat
          c.modelVersion.toNat) := by
    simp only [layout, numbers, List.append_assoc]
    rfl
  rw [← hbody, canonicalPreimage, hbuffer]
  split_ifs with hlong
  · refine iff_of_false ?_ ?_
    · intro h
      obtain ⟨msg, hmsg, -⟩ := bind_eq_ok.mp h
      exact throw_not_ok hmsg
    · intro ⟨hle, _⟩
      exact absurd hlong (not_lt.mpr hle)
  · refine ⟨fun h => ⟨not_lt.mp hlong, pure_eq_ok.mp h⟩, fun ⟨_, h⟩ => pure_eq_ok.mpr h⟩

theorem heartbeatPreimage_eq_ok {h : Heartbeat} {body : List UInt8}
    (hok : heartbeatPreimage h = .ok body) :
    (0 ≤ h.timestamp ∧ h.timestamp ≤ 2 ^ 64 - 1) ∧
      body = HEARTBEAT_DOMAIN_SEPARATOR ++ (utf8 h.name ++ bar ++ h.publicKey.bytes ++ bar ++
        toBigEndian 8 h.timestamp.toNat) := by
  obtain ⟨htime, hok⟩ := guard_eq_ok.mp hok
  obtain ⟨timestamp, hpack, hok⟩ := bind_eq_ok.mp hok
  obtain ⟨-, rfl⟩ := pack_eq_ok.mp hpack
  obtain rfl := pure_eq_ok.mp hok
  refine ⟨not_not.mp htime, ?_⟩
  simp only [List.append_assoc]

section Host

variable {host : Host}
  (hxdr : ∀ s : Symbol, Representable s → host.symbolToXdr s = scVal s)

include hxdr

theorem canonicalPreimage_of_scorePreimage {f : ScoreFields} {body : List UInt8}
    (hwallet : (utf8 f.wallet).length ≤ ADDRESS_STRKEY_LEN) (h : scorePreimage f = .ok body) :
    canonicalPreimage host f.submission = .ok body := by
  obtain ⟨haccepted, rfl⟩ := scorePreimage_eq_ok h
  have hscore := haccepted.score
  have hconfidence := haccepted.confidence
  have htime := haccepted.timestamp
  have hversion := haccepted.modelVersion
  refine canonicalPreimage_eq_ok.mpr ⟨hwallet, ?_⟩
  simp only [ScoreFields.submission, hxdr _ haccepted.assetPair]
  rw [UInt32.toNat_ofNat_of_lt' (by rw [UInt32.size]; omega),
    UInt64.toNat_ofNat_of_lt' (by rw [UInt64.size]; omega),
    UInt32.toNat_ofNat_of_lt' (by rw [UInt32.size]; omega),
    UInt32.toNat_ofNat_of_lt' (by rw [UInt32.size]; omega)]

theorem submission_of_canonicalPreimage {c d : Submission} {body : List UInt8}
    (hc : Representable c.assetPair) (hd : Representable d.assetPair)
    (h : canonicalPreimage host c = .ok body) (h' : canonicalPreimage host d = .ok body) :
    c = d := by
  obtain ⟨-, rfl⟩ := canonicalPreimage_eq_ok.mp h
  obtain ⟨-, heq⟩ := canonicalPreimage_eq_ok.mp h'
  rw [hxdr _ hc, hxdr _ hd] at heq
  obtain ⟨hwallet, hsymbol, hnumbers⟩ := layout_inj (by simp only [length_numbers])
    (bar_notMem_scVal hd) (bar_notMem_scVal hc) heq
  obtain ⟨hscore, hbenford, hml, htime, hconf, hversion⟩ := numbers_inj
    ⟨d.score.toNat_lt, c.score.toNat_lt⟩ ⟨d.timestamp.toNat_lt, c.timestamp.toNat_lt⟩
    ⟨d.confidence.toNat_lt, c.confidence.toNat_lt⟩
    ⟨d.modelVersion.toNat_lt, c.modelVersion.toNat_lt⟩ hnumbers
  obtain ⟨⟨wallet⟩, pair, score, benford, ml, time, conf, version⟩ := c
  obtain ⟨⟨wallet'⟩, pair', score', benford', ml', time', conf', version'⟩ := d
  obtain rfl := utf8_inj hwallet
  obtain rfl := scVal_inj hd hc hsymbol
  obtain rfl := UInt32.toNat_inj.mp hscore
  obtain rfl := UInt64.toNat_inj.mp htime
  obtain rfl := UInt32.toNat_inj.mp hconf
  obtain rfl := UInt32.toNat_inj.mp hversion
  obtain rfl : benford' = benford := hbenford
  obtain rfl : ml' = ml := hml
  rfl

end Host

theorem fields_of_scorePreimage {f g : ScoreFields} {body : List UInt8}
    (hf : scorePreimage f = .ok body) (hg : scorePreimage g = .ok body) : f = g := by
  obtain ⟨hacc, rfl⟩ := scorePreimage_eq_ok hf
  obtain ⟨hacc', heq⟩ := scorePreimage_eq_ok hg
  have hscore := And.intro hacc.score hacc'.score
  have hconfidence := And.intro hacc.confidence hacc'.confidence
  have htime := And.intro hacc.timestamp hacc'.timestamp
  have hversion := And.intro hacc.modelVersion hacc'.modelVersion
  obtain ⟨hwallet, hsymbol, hnumbers⟩ := layout_inj (by simp only [length_numbers])
    (bar_notMem_scVal hacc.assetPair) (bar_notMem_scVal hacc'.assetPair) heq
  obtain ⟨hscore', hbenford, hml, htime', hconf', hversion'⟩ := numbers_inj
    (by omega) (by omega) (by omega) (by omega) hnumbers
  have hpair := congrArg Symbol.name (scVal_inj hacc.assetPair hacc'.assetPair hsymbol)
  obtain ⟨wallet, pair, score, benford, ml, time, conf, version⟩ := f
  obtain ⟨wallet', pair', score', benford', ml', time', conf', version'⟩ := g
  obtain rfl := utf8_inj hwallet
  simp only at hpair hscore htime hconfidence hversion hscore' htime' hconf' hversion' hbenford hml
  obtain rfl : score = score' := by omega
  obtain rfl : time = time' := by omega
  obtain rfl : conf = conf' := by omega
  obtain rfl : version = version' := by omega
  rw [hpair, hbenford, hml]

/-- The key and the timestamp of a heartbeat have fixed places at its end. -/
theorem heartbeat_of_heartbeatPreimage {h k : Heartbeat} {body : List UInt8}
    (hh : heartbeatPreimage h = .ok body) (hk : heartbeatPreimage k = .ok body) : h = k := by
  obtain ⟨htime, rfl⟩ := heartbeatPreimage_eq_ok hh
  obtain ⟨htime', heq⟩ := heartbeatPreimage_eq_ok hk
  have heq := List.append_cancel_left heq
  obtain ⟨heq, hstamp⟩ := List.append_inj' heq (by simp)
  have heq := List.append_cancel_right heq
  obtain ⟨heq, hkey⟩ := List.append_inj' heq
    (h.publicKey.length_eq.trans k.publicKey.length_eq.symm)
  have hname := utf8_inj (List.append_cancel_right heq)
  have hstamp := toBigEndian_inj (by omega) (by omega) hstamp
  obtain ⟨name, ⟨key, hlen⟩, time⟩ := h
  obtain ⟨name', ⟨key', hlen'⟩, time'⟩ := k
  simp only at hname hkey hstamp htime htime'
  obtain rfl := hname
  obtain rfl := hkey
  obtain rfl : time = time' := by omega
  rfl

theorem scorePreimage_ne_heartbeatPreimage {f : ScoreFields} {h : Heartbeat} {body : List UInt8}
    (hf : scorePreimage f = .ok body) : heartbeatPreimage h ≠ .ok body := by
  intro hh
  obtain ⟨-, rfl⟩ := scorePreimage_eq_ok hf
  obtain ⟨-, heq⟩ := heartbeatPreimage_eq_ok hh
  have hscore : ORACLE_DOMAIN_SEPARATOR = [76, 101, 100, 103, 101, 114, 76, 101, 110, 115, 45, 79,
      114, 97, 99, 108, 101, 45, 118, 50] := utf8_of_ascii (by decide)
  have hbeat : HEARTBEAT_DOMAIN_SEPARATOR = [76, 101, 100, 103, 101, 114, 76, 101, 110, 115, 45, 79,
      114, 97, 99, 108, 101, 45, 72, 101, 97, 114, 116, 98, 101, 97, 116, 45, 118, 49] :=
    utf8_of_ascii (by decide)
  rw [layout, hscore, hbeat] at heq
  simp at heq

/-- Where the host encodes symbols as XDR, the contract builds the bytes that the signer signs; on
both sides, and for heartbeats, equal bytes come from equal fields; and no score message is a
heartbeat. -/
theorem preimages_unambiguous (host : Host)
    (hxdr : ∀ s : Symbol, Representable s → host.symbolToXdr s = scVal s) :
    (∀ (f : ScoreFields) (body : List UInt8), (utf8 f.wallet).length ≤ ADDRESS_STRKEY_LEN →
      scorePreimage f = .ok body → canonicalPreimage host f.submission = .ok body) ∧
    (∀ (f g : ScoreFields) (body : List UInt8),
      scorePreimage f = .ok body → scorePreimage g = .ok body → f = g) ∧
    (∀ (c d : Submission) (body : List UInt8), Representable c.assetPair →
      Representable d.assetPair → canonicalPreimage host c = .ok body →
        canonicalPreimage host d = .ok body → c = d) ∧
    (∀ (h k : Heartbeat) (body : List UInt8),
      heartbeatPreimage h = .ok body → heartbeatPreimage k = .ok body → h = k) ∧
    ∀ (f : ScoreFields) (h : Heartbeat) (body : List UInt8),
      scorePreimage f = .ok body → heartbeatPreimage h ≠ .ok body := by
  refine ⟨?_, ?_, ?_, ?_, ?_⟩
  · intro f body hwallet hf
    exact canonicalPreimage_of_scorePreimage hxdr hwallet hf
  · intro f g body hf hg
    exact fields_of_scorePreimage hf hg
  · intro c d body hc hd h h'
    exact submission_of_canonicalPreimage hxdr hc hd h h'
  · intro h k body hh hk
    exact heartbeat_of_heartbeatPreimage hh hk
  · intro f h body hf
    exact scorePreimage_ne_heartbeatPreimage hf

def xdrHost : Host where
  sha256 := Sha256.sha256
  ed25519Verify := fun _ _ _ => false
  symbolToXdr := scVal
  currentContractAddress := ⟨"CAAAAAAAAAAAAAAAAAAAAAAAAAAAAAAAAAAAAAAAAAAAAAAAAAAABSC4"⟩
  targetReturns := fun _ => true

def exampleFields : ScoreFields where
  wallet := "GAAAAAAAAAAAAAAAAAAAAAAAAAAAAAAAAAAAAAAAAAAAAAAAAAAAAWHF"
  assetPair := "XLM_USDC"
  score := 85
  benfordFlag := true
  mlFlag := false
  timestamp := 1672531200
  confidence := 91
  modelVersion := 7

theorem preimages_unambiguous_example :
    ∃ body, scorePreimage exampleFields = .ok body ∧
      canonicalPreimage xdrHost exampleFields.submission = .ok body := by
  have hwallet : utf8 exampleFields.wallet = exampleFields.wallet.toList.map
      fun c => c.val.toUInt8 := utf8_of_ascii (by decide)
  refine ⟨_, rfl, (preimages_unambiguous xdrHost fun _ _ => rfl).1 exampleFields _ ?_ rfl⟩
  rw [hwallet]
  decide

end OracleMessages
