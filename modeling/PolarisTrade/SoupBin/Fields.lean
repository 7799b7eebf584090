import PolarisTrade.Lib.Text
import PolarisTrade.SoupBin.Session

/-!
# Fields of the login packets

The login request and the answer to it are fixed-width text.  Left-justified fields are the bytes
of a string and spaces; right-justified numbers are spaces and decimal digits, of which a `u64`
has at most twenty.  What one side writes the other reads back.
-/

namespace SoupBin

open Transport Word

/-! ## Justified fields -/

theorem asBytes_eq (s : String) : asBytes s = Text.encode s.toList :=
  Text.toList_data_toByteArray s

theorem asciiLeftJustify_eq (out : List UInt8) (s : String) (width : ℕ) :
    asciiLeftJustify out s width = out ++
      ((asBytes s).take width ++ List.replicate (width - (asBytes s).length) ' '.toUInt8) := by
  have htake : (asBytes s).take (min (asBytes s).length width) = (asBytes s).take width := by
    rw [Nat.min_comm, ← List.take_eq_take_min]
  have hpad : width - ((asBytes s).take width).length = width - (asBytes s).length := by
    rw [List.length_take]
    omega
  unfold asciiLeftJustify
  rw [htake]
  dsimp only
  rw [hpad, List.append_assoc]

theorem asciiRightJustify_eq {s : String} {width : ℕ} (out : List UInt8)
    (hfits : (asBytes s).length ≤ width) :
    asciiRightJustify out s width =
      out ++ (List.replicate (width - (asBytes s).length) ' '.toUInt8 ++ asBytes s) := by
  unfold asciiRightJustify
  rw [Nat.sub_eq_zero_of_le hfits, List.drop_zero]
  dsimp only
  rw [List.append_assoc]

/-- A field between padding is read back, if it has no white space at its ends. -/
theorem parseAsciiField_padded {field : List Char} (hbare : Text.Bare isWhitespace field)
    (before after : ℕ) :
    parseAsciiField (List.replicate before ' '.toUInt8 ++ Text.encode field ++
      List.replicate after ' '.toUInt8) = .ok field := by
  -- padding is text too, so the whole field decodes and `trim` takes the padding off
  have hspaces : ∀ k, List.replicate k ' '.toUInt8 = Text.encode (List.replicate k ' ') :=
    fun k ↦ (Text.encode_replicate (by decide) k).symm
  have hspace : ∀ k, ∀ c ∈ List.replicate k ' ', isWhitespace c = true := by
    intro k c hc
    rw [List.eq_of_mem_replicate hc]
    decide
  unfold parseAsciiField
  rw [hspaces, hspaces, ← Text.encode_append, ← Text.encode_append, Text.fromUTF8?_encode]
  dsimp only
  rw [String.toList_ofList, trim, Text.strip_padded (hspace before) (hspace after) hbare]

/-! ## Numbers -/

theorem toList_toString (n : ℕ) : (toString n).toList = Nat.toDigits 10 n := Nat.toList_repr

theorem isDigit_of_mem_toString {n : ℕ} {c : Char} (hc : c ∈ Nat.toDigits 10 n) :
    c.isDigit = true :=
  Nat.isDigit_of_mem_toDigits (by decide) le_rfl hc

theorem length_asBytes_toString (n : UInt64) : (asBytes (toString n.toNat)).length ≤ 20 := by
  rw [asBytes_eq, toList_toString, Text.length_encode_of_isDigit fun c ↦ isDigit_of_mem_toString,
    Nat.length_toDigits_le_iff (by decide) (by decide)]
  exact n.toNat_lt.trans (by decide)

theorem not_isWhitespace_of_isDigit {c : Char} (hc : c.isDigit = true) :
    isWhitespace c = false := by
  have hlo : 48 ≤ c.toNat := by
    simp only [Char.isDigit, Bool.and_eq_true, decide_eq_true_eq] at hc
    exact hc.1
  have hhi : c.toNat ≤ 57 := by
    simp only [Char.isDigit, Bool.and_eq_true, decide_eq_true_eq] at hc
    exact hc.2
  simp only [isWhitespace, Bool.or_eq_false_iff, Bool.and_eq_false_iff, beq_eq_false_iff_ne,
    decide_eq_false_iff_not]
  omega

theorem parseU64_toDigits (n : UInt64) : parseU64 (Nat.toDigits 10 n.toNat) = some n.toNat := by
  have hne := @Nat.toDigits_ne_nil n.toNat 10
  have hall : (Nat.toDigits 10 n.toNat).all Char.isDigit = true :=
    List.all_eq_true.mpr fun c ↦ isDigit_of_mem_toString
  have hread := Text.foldl_toDigits n.toNat
  have hplain : ∀ ds, Nat.toDigits 10 n.toNat ≠ '+' :: ds := by
    intro ds hplus
    have hplus' : '+'.isDigit = true := isDigit_of_mem_toString (hplus ▸ List.mem_cons_self)
    exact absurd hplus' (by decide)
  unfold parseU64
  split
  · next heq => exact (hplain _ heq).elim
  · rw [if_pos ⟨hne, hall⟩, hread, if_pos n.toNat_lt]

/-- A right-justified number is read back. -/
theorem parseAsciiNumeric_justified (n : UInt64) :
    parseAsciiNumeric (asciiRightJustify [] (toString n.toNat) 20) = .ok n.toNat := by
  have hbare : Text.Bare isWhitespace (Nat.toDigits 10 n.toNat) := by
    refine ⟨fun c hc ↦ ?_, fun c hc ↦ ?_⟩
    · exact not_isWhitespace_of_isDigit (isDigit_of_mem_toString (List.mem_of_mem_head? hc))
    · exact not_isWhitespace_of_isDigit (isDigit_of_mem_toString (List.mem_of_getLast? hc))
  have hfield : parseAsciiField (asciiRightJustify [] (toString n.toNat) 20) =
      .ok (Nat.toDigits 10 n.toNat) := by
    rw [asciiRightJustify_eq [] (length_asBytes_toString n), asBytes_eq, toList_toString,
      List.nil_append]
    have hpadded := parseAsciiField_padded hbare
      (20 - (Text.encode (Nat.toDigits 10 n.toNat)).length) 0
    rwa [List.replicate_zero, List.append_nil] at hpadded
  unfold parseAsciiNumeric
  rw [hfield]
  cases hdigits : Nat.toDigits 10 n.toNat with
  | nil => exact (Nat.toDigits_ne_nil hdigits).elim
  | cons c cs =>
      dsimp only
      rw [← hdigits, parseU64_toDigits]
      rfl

/-! ## The two packets -/

/-- The fields of a login request one behind the other. -/
theorem loginRequest_eq (cfg : SoupBinClientConfig) :
    loginRequest cfg = asciiLeftJustify [] cfg.username 6 ++
      (asciiLeftJustify [] cfg.password 10 ++ (asciiLeftJustify [] cfg.requestedSession 10 ++
        asciiRightJustify [] (toString cfg.requestedSequenceNumber.toNat) 20)) := by
  have hfits := length_asBytes_toString cfg.requestedSequenceNumber
  unfold loginRequest
  dsimp only
  rw [asciiRightJustify_eq _ hfits, asciiRightJustify_eq [] hfits, asciiLeftJustify_eq _ _ 10,
    asciiLeftJustify_eq _ cfg.password, asciiLeftJustify_eq [] cfg.requestedSession,
    asciiLeftJustify_eq [] cfg.password]
  simp only [List.nil_append, List.append_assoc]

/-- The four fields at their offsets. -/
theorem extract_fields {user password session sequence : List UInt8} (huser : user.length = 6)
    (hpassword : password.length = 10) (hsession : session.length = 10)
    (hsequence : sequence.length = 20) :
    (user ++ (password ++ (session ++ sequence))).extract 0 6 = user ∧
    (user ++ (password ++ (session ++ sequence))).extract 6 16 = password ∧
    (user ++ (password ++ (session ++ sequence))).extract 16 26 = session ∧
    (user ++ (password ++ (session ++ sequence))).extract 26 46 = sequence := by
  have hdrop : user.drop 26 = [] := List.drop_of_length_le (by omega)
  have hdrop' : password.drop 20 = [] := List.drop_of_length_le (by omega)
  have htake : sequence.take 20 = sequence := List.take_of_length_le (by omega)
  simp [List.extract_eq_take_drop, List.drop_append, List.take_append, huser, hpassword,
    hsession, hdrop, hdrop', htake]

theorem extract_loginRequest (cfg : SoupBinClientConfig) :
    (loginRequest cfg).extract 0 6 = asciiLeftJustify [] cfg.username 6 ∧
    (loginRequest cfg).extract 6 16 = asciiLeftJustify [] cfg.password 10 ∧
    (loginRequest cfg).extract 16 26 = asciiLeftJustify [] cfg.requestedSession 10 ∧
    (loginRequest cfg).extract 26 46 =
      asciiRightJustify [] (toString cfg.requestedSequenceNumber.toNat) 20 := by
  have hleft : ∀ s width, (asciiLeftJustify [] s width).length = width := by
    intro s width
    rw [length_asciiLeftJustify, List.length_nil, Nat.zero_add]
  rw [loginRequest_eq]
  apply extract_fields (hleft _ 6) (hleft _ 10) (hleft _ 10)
  rw [length_asciiRightJustify, List.length_nil, Nat.zero_add]

/-- The sequence of a request is read back. -/
theorem parseAsciiNumeric_loginRequest (cfg : SoupBinClientConfig) :
    parseAsciiNumeric ((loginRequest cfg).extract 26 46) =
      .ok cfg.requestedSequenceNumber.toNat := by
  rw [(extract_loginRequest cfg).2.2.2, parseAsciiNumeric_justified]

/-- `Login Accepted` as a server builds it. -/
def loginAcceptedPayload (name : String) (sequence : UInt64) (trailing : List UInt8) :
    List UInt8 :=
  asciiRightJustify (asciiLeftJustify [] name 10) (toString sequence.toNat) 20 ++ trailing

/-- The session id a server sends for a name. -/
def sessionOf (name : String) : SessionId :=
  ⟨asciiLeftJustify [] name 10, length_asciiLeftJustify [] name 10⟩

theorem parseLoginAccepted_payload (name : String) (sequence : UInt64) (trailing : List UInt8) :
    parseLoginAccepted (loginAcceptedPayload name sequence trailing) =
      .ok (sessionOf name, sequence.toNat) := by
  have hfits := length_asBytes_toString sequence
  have hpayload : loginAcceptedPayload name sequence trailing = (sessionOf name).1 ++
      (asciiRightJustify [] (toString sequence.toNat) 20 ++ trailing) := by
    unfold loginAcceptedPayload
    rw [asciiRightJustify_eq _ hfits, asciiRightJustify_eq [] hfits, List.nil_append,
      List.append_assoc]
    rfl
  have hsession := splitFirstChunk_append (sessionOf name)
    (asciiRightJustify [] (toString sequence.toNat) 20 ++ trailing)
  have hsequence := splitFirstChunk_append (n := 20)
    ⟨asciiRightJustify [] (toString sequence.toNat) 20, length_asciiRightJustify [] _ 20⟩ trailing
  unfold parseLoginAccepted
  rw [hpayload, hsession]
  simp only [okOr, bind, Except.bind, hsequence, parseAsciiNumeric_justified]
  rfl

/-- A name that fits its field comes back from it. -/
theorem parseAsciiField_sessionOf {name : String} (hfits : (asBytes name).length ≤ 10)
    (hbare : Text.Bare isWhitespace name.toList) :
    parseAsciiField (sessionOf name).1 = .ok name.toList := by
  have hpadded := parseAsciiField_padded hbare 0 (10 - (asBytes name).length)
  rw [List.replicate_zero, List.nil_append, ← asBytes_eq] at hpadded
  change parseAsciiField (asciiLeftJustify [] name 10) = _
  rwa [asciiLeftJustify_eq, List.take_of_length_le hfits, List.nil_append]

/-- Login fields survive both ways.  A request is 46 bytes: user, password and session cut to
their width or filled up with spaces, and a sequence that reads back as the one requested, for
every `u64`.  An answer built from a name that fits and has no white space at its ends, and any
`u64`, is accepted with exactly these, the name included, and a request made from the sequence
the session then expects asks for the same message. -/
theorem login_fields_round_trip :
    (∀ cfg : SoupBinClientConfig,
      (loginRequest cfg).length = 46 ∧
      (loginRequest cfg).extract 0 6 = (asBytes cfg.username).take 6 ++
        List.replicate (6 - (asBytes cfg.username).length) ' '.toUInt8 ∧
      (loginRequest cfg).extract 6 16 = (asBytes cfg.password).take 10 ++
        List.replicate (10 - (asBytes cfg.password).length) ' '.toUInt8 ∧
      (loginRequest cfg).extract 16 26 = (asBytes cfg.requestedSession).take 10 ++
        List.replicate (10 - (asBytes cfg.requestedSession).length) ' '.toUInt8 ∧
      parseAsciiNumeric ((loginRequest cfg).extract 26 46) =
        .ok cfg.requestedSequenceNumber.toNat) ∧
    ∀ (name : String) (sequence : UInt64) (trailing : List UInt8),
      (asBytes name).length ≤ 10 → Text.Bare isWhitespace name.toList →
      parseLoginAccepted (loginAcceptedPayload name sequence trailing) =
        .ok (sessionOf name, sequence.toNat) ∧
      parseAsciiField (sessionOf name).1 = .ok name.toList ∧
      ∀ (now : Instant) (s : Session) (cfg : SoupBinClientConfig), ∃ s',
        Session.loginPacket now ⟨.loginAccepted, loginAcceptedPayload name sequence trailing⟩ s =
          some (.ok (.accepted (sessionOf name) sequence.toNat), s') ∧
        s'.assignedId = name ∧ s'.nextExpectedSequence = sequence.toNat ∧
        parseAsciiNumeric ((loginRequest
          { cfg with
            requestedSequenceNumber := .ofNat s'.nextExpectedSequence }).extract 26 46) =
          .ok sequence.toNat := by
  refine ⟨fun cfg ↦ ?_, fun name sequence trailing hfits hbare ↦ ?_⟩
  · obtain ⟨huser, hpassword, hsession, -⟩ := extract_loginRequest cfg
    refine ⟨length_loginRequest cfg, ?_, ?_, ?_, parseAsciiNumeric_loginRequest cfg⟩
    · rw [huser, asciiLeftJustify_eq, List.nil_append]
    · rw [hpassword, asciiLeftJustify_eq, List.nil_append]
    · rw [hsession, asciiLeftJustify_eq, List.nil_append]
  · have hparse := parseLoginAccepted_payload name sequence trailing
    have hfield := parseAsciiField_sessionOf hfits hbare
    refine ⟨hparse, hfield, fun now s cfg ↦ ?_⟩
    have hpacket : Session.loginPacket now
        ⟨.loginAccepted, loginAcceptedPayload name sequence trailing⟩ s =
        some (.ok (.accepted (sessionOf name) sequence.toNat),
          { s with
            assignedId := String.ofList name.toList
            nextExpectedSequence := sequence.toNat
            lastRecv := now
            state := .streaming }) := by
      unfold Session.loginPacket
      dsimp only
      rw [hparse]
      dsimp only
      rw [hfield]
    refine ⟨_, hpacket, String.ofList_toList, rfl, ?_⟩
    rw [parseAsciiNumeric_loginRequest]
    exact congrArg Except.ok (congrArg UInt64.toNat UInt64.ofNat_toNat)

/-- A name shorter than its field, and the largest sequence. -/
theorem login_fields_round_trip_last :
    (asBytes "FEED A").length ≤ 10 ∧
    parseLoginAccepted (loginAcceptedPayload "FEED A" (UInt64.ofNat (2 ^ 64 - 1)) [7]) =
      .ok (sessionOf "FEED A", 2 ^ 64 - 1) := by
  have hfits : (asBytes "FEED A").length ≤ 10 := by decide +kernel
  have hbare : Text.Bare isWhitespace "FEED A".toList := by
    have htext : "FEED A".toList = ['F', 'E', 'E', 'D', ' ', 'A'] := by decide +kernel
    rw [htext]
    refine ⟨fun c hc ↦ ?_, fun c hc ↦ ?_⟩
    · obtain rfl : 'F' = c := Option.some.inj hc
      decide
    · obtain rfl : 'A' = c := Option.some.inj hc
      decide
  exact ⟨hfits, (login_fields_round_trip.2 "FEED A" (UInt64.ofNat (2 ^ 64 - 1)) [7] hfits hbare).1⟩

end SoupBin
