import GoMedibloc.Ledger.Execute

/-!
# Transactions on the wire

A transaction is sent as a `corepb.Transaction`.  Amounts are sixteen bytes, the highest first;
addresses are byte strings of any length, of which `SetBytes` takes the last 33 and fills up with
zeros in front; sender and payer are not sent and are recovered from the signatures on decoding.

Two things are proved about the message.  A transaction that has the sender and the payer of its
signatures is decoded from its encoding (`Transaction.fromProto_toProto`).  And what a node accepts
does not depend on the length of the recipient: `SetBytes` turns every string into an address, and
the constructors look at the address, not at the string.  So a string of another length than 33 is
refused only if another field of the message is wrong (`malformed_recipient_refused_iff`), and two
messages that differ in the recipient alone can be the same transaction.
-/

namespace GoMedibloc

open Except

/-! ## Amounts -/

namespace Uint128

/-- `big.Int.Bytes`: the bytes of a number, the highest first, without zeros in front. -/
def bigIntBytes (n : ℕ) : Bytes := ((Nat.digits 256 n).map Nat.toUInt8).reverse

/-- `ToFixedSizeBytes`: the bytes of the number are copied to the end of sixteen zeros. -/
def toFixedSizeBytes (x : Uint128) : Bytes :=
  List.replicate (16 - (bigIntBytes x.val).length) 0 ++ bigIntBytes x.val

/-- The number that `FromFixedSizeByteSlice` finds: zeros in front are skipped, the rest goes to
`big.Int.SetBytes`. -/
def setFixedSizeByteSlice (b : Bytes) : Except Err ℕ := do
  failIf (b.length ≠ 16) .uint128InvalidBytesSize
  return ofBytes (b.dropWhile (· = 0))

lemma bigEndian_zero (n : ℕ) : bigEndian n 0 = List.replicate n 0 := by
  induction n with
  | zero => rfl
  | succ n ih =>
      rw [bigEndian, Nat.zero_div, ih]
      exact List.replicate_succ'.symm

/-- A number written with `n` bytes: its own bytes with zeros in front. -/
lemma bigEndian_eq (n : ℕ) {x : ℕ} (hx : x < 256 ^ n) :
    bigEndian n x = List.replicate (n - (bigIntBytes x).length) 0 ++ bigIntBytes x := by
  induction n generalizing x with
  | zero =>
      obtain rfl : x = 0 := by simpa using hx
      rfl
  | succ n ih =>
      rcases Nat.eq_zero_or_pos x with rfl | hpos
      · rw [bigEndian_zero]
        simp [bigIntBytes]
      · -- the last digit goes behind the digits of the quotient
        have hbytes : bigIntBytes x = bigIntBytes (x / 256) ++ [x.toUInt8] := by
          have hlast : (x % 256).toUInt8 = x.toUInt8 := by
            apply UInt8.toNat_inj.1
            simp
          rw [bigIntBytes, Nat.digits_def' (by norm_num) hpos, List.map_cons, List.reverse_cons,
            hlast]
          rfl
        have hquot : x / 256 < 256 ^ n := by
          rw [pow_succ] at hx
          exact Nat.div_lt_of_lt_mul (by omega)
        rw [bigEndian, ih hquot, hbytes, ← List.append_assoc, List.length_append,
          List.length_singleton, Nat.add_sub_add_right]

/-- The two ways to write an amount agree. -/
lemma toFixedSizeBytes_eq (x : Uint128) : x.toFixedSizeBytes = x.toFixedSizeByteSlice :=
  (bigEndian_eq 16 (x.lt.trans_eq (by norm_num))).symm

lemma ofBytes_dropWhile (b : Bytes) : ofBytes (b.dropWhile (· = 0)) = ofBytes b := by
  induction b with
  | nil => rfl
  | cons x b ih =>
      by_cases hx : x = 0
      · subst hx
        rw [List.dropWhile_cons_of_pos (by simp), ih]
        rfl
      · rw [List.dropWhile_cons_of_neg (by simpa using hx)]

/-- The two ways to read an amount agree. -/
lemma setFixedSizeByteSlice_eq (b : Bytes) :
    setFixedSizeByteSlice b = (fromFixedSizeByteSlice b).map Uint128.val := by
  by_cases hlen : b.length = 16
  · rw [setFixedSizeByteSlice, bind_of_ok (failIf_of_not (not_not.2 hlen)), ofBytes_dropWhile,
      fromFixedSizeByteSlice, dif_pos hlen]
    rfl
  · rw [setFixedSizeByteSlice, bind_of_error (failIf_of hlen), fromFixedSizeByteSlice,
      dif_neg hlen]
    rfl

/-- Bytes are written back as they were read. -/
lemma bigEndian_ofBytes (b : Bytes) : bigEndian b.length (ofBytes b) = b := by
  induction b using List.reverseRecOn with
  | nil => rfl
  | append_singleton b x ih =>
      have hval : ofBytes (b ++ [x]) = 256 * ofBytes b + x.toNat := by
        rw [ofBytes, List.foldl_append]
        rfl
      have hx := x.toNat_lt
      have hquot : ofBytes (b ++ [x]) / 256 = ofBytes b := by omega
      have hlast : (ofBytes (b ++ [x])).toUInt8 = x := by
        apply UInt8.toNat_inj.1
        rw [hval, UInt8.toNat_ofNat']
        omega
      rw [List.length_append, List.length_singleton, bigEndian, hquot, ih, hlast]

lemma fromFixedSizeByteSlice_isOk_iff {b : Bytes} :
    (∃ x, fromFixedSizeByteSlice b = .ok x) ↔ b.length = 16 := by
  unfold fromFixedSizeByteSlice
  split_ifs with h <;> simp [h]

lemma val_of_fromFixedSizeByteSlice {b : Bytes} {x : Uint128}
    (h : fromFixedSizeByteSlice b = .ok x) : x.val = ofBytes b := by
  rw [fromFixedSizeByteSlice, dif_pos (fromFixedSizeByteSlice_isOk_iff.1 ⟨x, h⟩)] at h
  rw [← Except.ok.inj h]

/-- An amount that is decoded is encoded to the same bytes. -/
lemma toFixedSizeByteSlice_of_from {b : Bytes} {x : Uint128}
    (h : fromFixedSizeByteSlice b = .ok x) : x.toFixedSizeByteSlice = b := by
  have hlen : b.length = 16 := fromFixedSizeByteSlice_isOk_iff.1 ⟨x, h⟩
  rw [toFixedSizeByteSlice, val_of_fromFixedSizeByteSlice h, ← hlen]
  exact bigEndian_ofBytes b

end Uint128

/-! ## Addresses -/

namespace Address

/-- `SetBytes` on an empty address: of a longer string the last 33 bytes are taken, a shorter one
is copied to the end. -/
def setBytes (b : Bytes) : Address :=
  ⟨List.replicate (33 - b.length) 0 ++ b.drop (b.length - 33), by
    rw [List.length_append, List.length_replicate, List.length_drop]
    omega⟩

/-- `FromBytes`, which never fails. -/
def fromBytes (b : Bytes) : Except Err Address := .ok (setBytes b)

lemma setBytes_of_length {b : Bytes} (h : b.length = 33) : setBytes b = ⟨b, h⟩ := by
  apply Subtype.ext
  simp [setBytes, h]

@[simp] lemma setBytes_toList (a : Address) : setBytes a.toList = a :=
  setBytes_of_length a.toList_length

/-- Byte `i` of a string from its end; zero in front of the string. -/
def byteFromEnd (b : Bytes) (i : ℕ) : UInt8 := b.reverse.getD i 0

lemma byteFromEnd_setBytes (b : Bytes) {i : ℕ} (hi : i < 33) :
    byteFromEnd (setBytes b).toList i = byteFromEnd b i := by
  have hrev : (setBytes b).toList.reverse =
      b.reverse.take 33 ++ List.replicate (33 - b.length) 0 := by
    change (List.replicate (33 - b.length) 0 ++ b.drop (b.length - 33)).reverse = _
    rw [List.reverse_append, List.reverse_replicate, List.reverse_drop]
    rcases le_total b.length 33 with hle | hle
    · rw [Nat.sub_eq_zero_of_le hle, Nat.sub_zero, ← List.length_reverse, List.take_length,
        List.take_of_length_le (by simpa using hle)]
    · rw [Nat.sub_sub_self hle]
  rw [byteFromEnd, hrev, byteFromEnd]
  rcases lt_or_ge i b.length with hlt | hge
  · rw [List.getD_append _ _ _ _ (by simp; omega)]
    simp [List.getD_eq_getElem?_getD, hi]
  · rw [List.getD_append_right _ _ _ _ (by simp; omega),
      List.getD_eq_default b.reverse _ (by simpa using hge)]
    rw [List.getD_eq_getElem?_getD, List.getElem?_replicate]
    split_ifs <;> rfl

/-- Two strings are one address if their last 33 bytes agree. -/
lemma setBytes_eq_iff {b b' : Bytes} :
    setBytes b = setBytes b' ↔ ∀ i < 33, byteFromEnd b i = byteFromEnd b' i := by
  constructor
  · intro h i hi
    rw [← byteFromEnd_setBytes b hi, h, byteFromEnd_setBytes b' hi]
  · intro h
    apply List.Vector.eq
    apply List.reverse_injective
    apply List.ext_getElem (by simp)
    intro i hi hi'
    have hlt : i < 33 := by simpa using hi
    have heq := h i hlt
    rw [← byteFromEnd_setBytes b hlt, ← byteFromEnd_setBytes b' hlt, byteFromEnd, byteFromEnd,
      List.getD_eq_getElem _ _ hi, List.getD_eq_getElem _ _ hi'] at heq
    exact heq

end Address

/-! ## Messages -/

/-- `corepb.Receipt`. -/
structure PbReceipt where
  executed : Bool
  timestamp : ℤ
  height : ℕ
  cpuUsage : UInt64
  netUsage : UInt64
  points : Bytes
  error : Bytes
deriving DecidableEq

/-- `corepb.Transaction`. -/
structure PbTransaction where
  hash : Bytes
  txType : TxType
  toAddr : Bytes
  value : Bytes
  nonce : UInt64
  chainId : UInt32
  payload : Bytes
  sign : Bytes
  payerSign : Bytes
  receipt : Option PbReceipt
deriving DecidableEq

namespace Receipt

/-- `Receipt.ToProto`. -/
def toProto (r : Receipt) : PbReceipt where
  executed := r.executed
  timestamp := r.timestamp
  height := r.height
  cpuUsage := r.cpuUsage
  netUsage := r.netUsage
  points := r.points.toFixedSizeByteSlice
  error := r.error

/-- `Receipt.FromProto`. -/
def fromProto (pb : PbReceipt) : Except Err Receipt := do
  let points ← Uint128.fromFixedSizeByteSlice pb.points
  return ⟨pb.executed, pb.timestamp, pb.height, pb.cpuUsage, pb.netUsage, points, pb.error⟩

lemma fromProto_toProto (r : Receipt) : fromProto r.toProto = .ok r := by
  have hpoints : Uint128.fromFixedSizeByteSlice r.toProto.points = .ok r.points :=
    Uint128.fromFixedSizeByteSlice_toFixedSizeByteSlice r.points
  rw [fromProto, bind_of_ok hpoints]
  rfl

/-- The receipt of a message, if there is one. -/
def ofProto : Option PbReceipt → Except Err (Option Receipt)
  | none => .ok none
  | some pb => (fromProto pb).map some

lemma ofProto_toProto (r : Option Receipt) : ofProto (r.map toProto) = .ok r := by
  cases r with
  | none => rfl
  | some r =>
      rw [Option.map_some, ofProto, fromProto_toProto]
      rfl

lemma ofProto_isOk_iff {pb : Option PbReceipt} :
    (∃ r, ofProto pb = .ok r) ↔ ∀ r ∈ pb, r.points.length = 16 := by
  cases pb with
  | none => simp [ofProto]
  | some pb =>
      simp only [ofProto, Option.mem_some_iff, forall_eq', map_eq_ok_iff,
        ← Uint128.fromFixedSizeByteSlice_isOk_iff]
      constructor
      · rintro ⟨-, r, h, -⟩
        obtain ⟨points, h, -⟩ := bind_eq_ok_iff.1 h
        exact ⟨points, h⟩
      · rintro ⟨points, h⟩
        exact ⟨_, _, bind_of_ok h _, rfl⟩

end Receipt

namespace Transaction

/-- `Transaction.ToProto`. -/
def toProto (tx : Transaction) : PbTransaction where
  hash := tx.hash
  txType := tx.txType
  toAddr := tx.toAddr.toList
  value := tx.value.toFixedSizeByteSlice
  nonce := tx.nonce
  chainId := tx.chainID
  payload := tx.payload
  sign := tx.sign
  payerSign := tx.payerSign
  receipt := tx.receipt.map Receipt.toProto

/-- `Transaction.FromProto`. -/
def fromProto (env : Env) (pb : PbTransaction) : Except Err Transaction := do
  let value ← Uint128.fromFixedSizeByteSlice pb.value
  let receipt ← Receipt.ofProto pb.receipt
  let toAddr ← Address.fromBytes pb.toAddr
  Transaction.recover env {
    hash := pb.hash
    txType := pb.txType
    toAddr := toAddr
    value := value
    nonce := pb.nonce
    chainID := pb.chainId
    payload := pb.payload
    sign := pb.sign
    payerSign := pb.payerSign
    receipt := receipt
    fromAddr := Address.none
    payer := Address.none }

variable {env : Env} {tx : Transaction}

/-- `p` is the payer of a transaction: the signer of the payer's signature, and no address if there
is none. -/
def PaidBy (env : Env) (tx : Transaction) (p : Address) : Prop :=
  if tx.payerSign = [] then p = Address.none
  else env.recoverPublic (env.payerSignTarget tx.hash tx.sign) tx.payerSign = some p

lemma exists_paidBy_iff (env : Env) (tx : Transaction) :
    (∃ p, tx.PaidBy env p) ↔ (tx.payerSign ≠ [] →
      ∃ p, env.recoverPublic (env.payerSignTarget tx.hash tx.sign) tx.payerSign = some p) := by
  unfold PaidBy
  split_ifs with hsign <;> simp [hsign]

/-- What decoding finds out about a transaction. -/
lemma recover_eq_ok_iff {tx' : Transaction} :
    tx.recover env = .ok tx' ↔ ∃ a p, tx.recoverFrom env = .ok a ∧ tx.PaidBy env p ∧
      tx' = { tx with fromAddr := a, payer := p } := by
  have hpayer : ∀ a : Address, { tx with fromAddr := a }.recoverPayer env = tx.recoverPayer env :=
    fun _ => rfl
  simp only [recover, bind_eq_ok_iff, PaidBy, hpayer]
  refine exists_congr fun a => ?_
  by_cases hsign : tx.payerSign = []
  · have herr : tx.recoverPayer env = .error .payerSignatureNotExist :=
      bind_of_error (failIf_of hsign) _
    simp only [herr, if_pos hsign]
    constructor
    · rintro ⟨hfrom, htx⟩
      exact ⟨_, hfrom, rfl, (Except.ok.inj htx).symm⟩
    · rintro ⟨_, hfrom, rfl, rfl⟩
      exact ⟨hfrom, rfl⟩
  · have hrec : tx.recoverPayer env =
        ofOption .recoverFailed
          (env.recoverPublic (env.payerSignTarget tx.hash tx.sign) tx.payerSign) :=
      bind_of_ok (failIf_of_not hsign) _
    simp only [hrec, if_neg hsign]
    cases env.recoverPublic (env.payerSignTarget tx.hash tx.sign) tx.payerSign with
    | none =>
        constructor
        · rintro ⟨-, htx⟩
          cases htx
        · rintro ⟨_, -, hp, -⟩
          cases hp
    | some p =>
        constructor
        · rintro ⟨hfrom, htx⟩
          exact ⟨p, hfrom, rfl, (Except.ok.inj htx).symm⟩
        · rintro ⟨_, hfrom, hp, rfl⟩
          cases hp
          exact ⟨hfrom, rfl⟩

/-- What decoding needs of a message besides the signatures. -/
lemma fromProto_eq_ok_iff {pb : PbTransaction} :
    fromProto env pb = .ok tx ↔ ∃ value receipt,
      Uint128.fromFixedSizeByteSlice pb.value = .ok value ∧
      Receipt.ofProto pb.receipt = .ok receipt ∧
      Transaction.recover env ⟨pb.hash, pb.txType, Address.setBytes pb.toAddr, value, pb.nonce,
        pb.chainId, pb.payload, pb.sign, pb.payerSign, receipt, Address.none, Address.none⟩ =
          .ok tx := by
  simp only [fromProto, bind_eq_ok_iff, Address.fromBytes]
  constructor
  · rintro ⟨value, hvalue, receipt, hreceipt, -, ⟨rfl⟩, h⟩
    exact ⟨value, receipt, hvalue, hreceipt, h⟩
  · rintro ⟨value, receipt, hvalue, hreceipt, h⟩
    exact ⟨value, hvalue, receipt, hreceipt, _, rfl, h⟩

/-- **Round trip of a transaction.**  A transaction with the sender and the payer of its signatures
is decoded from its encoding. -/
lemma fromProto_toProto (h : tx.recover env = .ok tx) : fromProto env tx.toProto = .ok tx := by
  obtain ⟨a, p, hfrom, hpaid, htx⟩ := recover_eq_ok_iff.1 h
  refine fromProto_eq_ok_iff.2 ⟨tx.value, tx.receipt,
    Uint128.fromFixedSizeByteSlice_toFixedSizeByteSlice tx.value,
    Receipt.ofProto_toProto tx.receipt, recover_eq_ok_iff.2 ⟨a, p, ?_, hpaid, ?_⟩⟩
  · exact (recoverFrom_congr env tx _ _ _).trans hfrom
  · rw [htx]
    simp [toProto]

end Transaction

/-! ## Recipients -/

section Recipients

variable {env : Env} {pb : PbTransaction} {tx : Transaction}

/-- A message is accepted as a transaction: `FromProto` decodes it and the constructor of its type
takes the result. -/
def Accepts (env : Env) (pb : PbTransaction) (tx : Transaction) : Prop :=
  Transaction.fromProto env pb = .ok tx ∧ ∃ exeTx, txConv env tx = .ok exeTx

/-- Decoding runs the constructor already, to learn how the sender is recovered. -/
lemma accepts_iff : Accepts env pb tx ↔ Transaction.fromProto env pb = .ok tx := by
  refine ⟨fun h => h.1, fun h => ⟨h, ?_⟩⟩
  obtain ⟨value, receipt, -, -, h⟩ := Transaction.fromProto_eq_ok_iff.1 h
  obtain ⟨a, p, hfrom, -, htx⟩ := Transaction.recover_eq_ok_iff.1 h
  have hsame : tx.recoverFrom env = .ok a := by
    rw [← hfrom, htx]
    exact Transaction.recoverFrom_congr env _ _ _ _
  obtain ⟨exeTx, hexe, -⟩ := bind_eq_ok_iff.1 hsame
  exact ⟨exeTx, hexe⟩

/-- What a transfer and a certification have to say besides who receives them. -/
def ContentRight (env : Env) (pb : PbTransaction) : Prop :=
  match pb.txType with
  | .transfer =>
      Uint128.ofBytes pb.value ≠ 0 ∧
        ∃ p, bytesToTransactionPayload env.defaultPayload pb.payload = .ok p
  | .addCertification =>
      ∃ p, bytesToTransactionPayload env.addCertificationPayload pb.payload = .ok p ∧
        p.certificateHash.length = hashLength
  | _ => False

/-- A message with nothing wrong in it, its recipient aside. -/
structure OtherFieldsRight (env : Env) (pb : PbTransaction) : Prop where
  value : pb.value.length = 16
  receipt : ∀ r ∈ pb.receipt, r.points.length = 16
  size : pb.payload.length ≤ maxPayloadSize
  content : ContentRight env pb
  signed : pb.sign ≠ []
  sender : ∃ a, env.recoverPublic pb.hash pb.sign = some a
  payer : pb.payerSign ≠ [] →
    ∃ p, env.recoverPublic (env.payerSignTarget pb.hash pb.sign) pb.payerSign = some p

lemma recoverSigner_eq_ok {a : Address} :
    recoverSigner env tx = .ok a ↔ tx.sign ≠ [] ∧ env.recoverPublic tx.hash tx.sign = some a := by
  simp [recoverSigner, bind_eq_ok_iff]

lemma recoverFrom_transfer (htype : tx.txType = .transfer) {a : Address} :
    tx.recoverFrom env = .ok a ↔ tx.payload.length ≤ maxPayloadSize ∧ tx.value.val ≠ 0 ∧
      (∃ p, bytesToTransactionPayload env.defaultPayload tx.payload = .ok p) ∧
      recoverSigner env tx = .ok a := by
  simp only [Transaction.recoverFrom, txConv, htype, newTransferTx, checkPayloadSize, bind_assoc,
    pure_bind, bind_eq_ok_iff, failIf_eq_ok, not_lt, exists_and_left, exists_const,
    exists_and_right]
  rfl

lemma recoverFrom_addCertification (htype : tx.txType = .addCertification) {a : Address} :
    tx.recoverFrom env = .ok a ↔ tx.payload.length ≤ maxPayloadSize ∧
      (∃ p, bytesToTransactionPayload env.addCertificationPayload tx.payload = .ok p ∧
        p.certificateHash.length = hashLength) ∧ recoverSigner env tx = .ok a := by
  simp only [Transaction.recoverFrom, txConv, htype, newAddCertificationTx, checkPayloadSize,
    bind_assoc, pure_bind, bind_eq_ok_iff, failIf_eq_ok, not_lt, not_not, exists_and_left,
    exists_const]
  constructor
  · rintro ⟨hsize, p, hp, hlen, h⟩
    exact ⟨hsize, ⟨p, hp, hlen⟩, h⟩
  · rintro ⟨hsize, ⟨p, hp, hlen⟩, h⟩
    exact ⟨hsize, p, hp, hlen, h⟩

/-- When the sender of a decoded message is found. -/
lemma recoverFrom_decoded (hkind : pb.txType = .transfer ∨ pb.txType = .addCertification)
    {value : Uint128} (hvalue : Uint128.fromFixedSizeByteSlice pb.value = .ok value)
    (receipt : Option Receipt) (t : Address) {a : Address} :
    Transaction.recoverFrom env ⟨pb.hash, pb.txType, t, value, pb.nonce, pb.chainId, pb.payload,
        pb.sign, pb.payerSign, receipt, Address.none, Address.none⟩ = .ok a ↔
      pb.payload.length ≤ maxPayloadSize ∧ ContentRight env pb ∧ pb.sign ≠ [] ∧
        env.recoverPublic pb.hash pb.sign = some a := by
  have hval := Uint128.val_of_fromFixedSizeByteSlice hvalue
  rcases hkind with hkind | hkind
  · rw [recoverFrom_transfer hkind, recoverSigner_eq_ok]
    simp only [ContentRight, hkind, hval, and_assoc]
  · rw [recoverFrom_addCertification hkind, recoverSigner_eq_ok]
    simp only [ContentRight, hkind]

/-- Decoding succeeds exactly if the fields besides the recipient are right. -/
lemma fromProto_isOk_iff (hkind : pb.txType = .transfer ∨ pb.txType = .addCertification) :
    (∃ tx, Transaction.fromProto env pb = .ok tx) ↔ OtherFieldsRight env pb := by
  constructor
  · rintro ⟨tx, h⟩
    obtain ⟨value, receipt, hvalue, hreceipt, h⟩ := Transaction.fromProto_eq_ok_iff.1 h
    obtain ⟨a, p, hfrom, hpaid, -⟩ := Transaction.recover_eq_ok_iff.1 h
    obtain ⟨hsize, hcontent, hsign, hsender⟩ := (recoverFrom_decoded hkind hvalue _ _).1 hfrom
    exact ⟨Uint128.fromFixedSizeByteSlice_isOk_iff.1 ⟨value, hvalue⟩,
      Receipt.ofProto_isOk_iff.1 ⟨receipt, hreceipt⟩, hsize, hcontent, hsign, ⟨a, hsender⟩,
      (Transaction.exists_paidBy_iff env _).1 ⟨p, hpaid⟩⟩
  · rintro ⟨hvalue, hreceipt, hsize, hcontent, hsign, ⟨a, hsender⟩, hpayer⟩
    obtain ⟨value, hvalue⟩ := Uint128.fromFixedSizeByteSlice_isOk_iff.2 hvalue
    obtain ⟨receipt, hreceipt⟩ := Receipt.ofProto_isOk_iff.2 hreceipt
    have hfrom := (recoverFrom_decoded hkind hvalue receipt (Address.setBytes pb.toAddr)).2
      ⟨hsize, hcontent, hsign, hsender⟩
    have hpaid := Transaction.exists_paidBy_iff env ⟨pb.hash, pb.txType,
      Address.setBytes pb.toAddr, value, pb.nonce, pb.chainId, pb.payload, pb.sign, pb.payerSign,
      receipt, Address.none, Address.none⟩
    obtain ⟨p, hpaid⟩ := hpaid.2 hpayer
    exact ⟨_, Transaction.fromProto_eq_ok_iff.2 ⟨value, receipt, hvalue, hreceipt,
      Transaction.recover_eq_ok_iff.2 ⟨a, p, hfrom, hpaid, rfl⟩⟩⟩

lemma toAddr_of_fromProto (h : Transaction.fromProto env pb = .ok tx) :
    tx.toAddr = Address.setBytes pb.toAddr := by
  obtain ⟨value, receipt, -, -, h⟩ := Transaction.fromProto_eq_ok_iff.1 h
  obtain ⟨a, p, -, -, rfl⟩ := Transaction.recover_eq_ok_iff.1 h
  rfl

/-- A recipient that is read as the same address gives the same transaction. -/
lemma fromProto_of_setBytes_eq {t : Bytes} (ht : Address.setBytes t = Address.setBytes pb.toAddr) :
    Transaction.fromProto env { pb with toAddr := t } = Transaction.fromProto env pb := by
  simp only [Transaction.fromProto, Address.fromBytes, ht]

/-- **A malformed recipient is refused only if something else is wrong.**  For every message of the
two types: one whose recipient has not 33 bytes is refused if and only if another field is wrong.
Two messages that differ in the recipient alone are never accepted as one transaction if and only if
the last 33 bytes of the recipients differ, a missing byte counting as zero, or another field is
wrong. -/
theorem malformed_recipient_refused_iff (env : Env) (pb : PbTransaction)
    (hkind : pb.txType = .transfer ∨ pb.txType = .addCertification) :
    ((pb.toAddr.length ≠ 33 → ¬ ∃ tx, Accepts env pb tx) ↔
      pb.toAddr.length = 33 ∨ ¬ OtherFieldsRight env pb) ∧
    ∀ t ≠ pb.toAddr, (¬ (∃ tx, Accepts env pb tx ∧ Accepts env { pb with toAddr := t } tx) ↔
      (∃ i < 33, Address.byteFromEnd t i ≠ Address.byteFromEnd pb.toAddr i) ∨
        ¬ OtherFieldsRight env pb) := by
  simp only [accepts_iff, fromProto_isOk_iff hkind]
  refine ⟨by rw [or_iff_not_imp_left], fun t _ => ?_⟩
  rw [← fromProto_isOk_iff hkind]
  constructor
  · intro hnever
    by_contra hcon
    push Not at hcon
    obtain ⟨hsame, tx, htx⟩ := hcon
    exact hnever ⟨tx, htx, (fromProto_of_setBytes_eq (Address.setBytes_eq_iff.2 hsame)).trans htx⟩
  · rintro (⟨i, hi, hne⟩ | hwrong) ⟨tx, htx, htx'⟩
    · have heq : Address.setBytes t = Address.setBytes pb.toAddr :=
        (toAddr_of_fromProto htx').symm.trans (toAddr_of_fromProto htx)
      exact hne (Address.setBytes_eq_iff.1 heq i hi)
    · exact hwrong ⟨tx, htx⟩

/-- A transfer that is accepted, with the 33 bytes of its recipient and with the first of them
missing. -/
theorem recipients_told_apart :
    let tx := Plain.signed ⟨.transfer, Plain.address 1, Plain.address 2, .ofUint 5, 1, 0, []⟩
    Accepts .plain tx.toProto tx ∧
      ¬ ∃ tx', Accepts .plain tx.toProto tx' ∧
        Accepts .plain { tx.toProto with toAddr := tx.toAddr.toList.tail } tx' := by
  intro tx
  have haccepts : Accepts .plain tx.toProto tx :=
    accepts_iff.2 (Transaction.fromProto_toProto (by decide +kernel))
  exact ⟨haccepts, ((malformed_recipient_refused_iff .plain tx.toProto (.inl rfl)).2
    tx.toAddr.toList.tail (by decide +kernel)).2 (.inl ⟨32, by decide, by decide +kernel⟩)⟩

/-- One byte more in front of the recipient: the message is accepted, as the same transaction as
without it, and passes `VerifyIntegrity`. -/
theorem long_recipient_accepted :
    let tx := Plain.signed ⟨.transfer, Plain.address 1, Plain.address 2, .ofUint 5, 1, 0, []⟩
    let long := { tx.toProto with toAddr := 7 :: tx.toAddr.toList }
    long.toAddr.length = 34 ∧ Accepts .plain long tx ∧ Accepts .plain tx.toProto tx ∧
      tx.verifyIntegrity .plain 0 = .ok tx := by
  intro tx long
  have hdecode : Transaction.fromProto .plain tx.toProto = .ok tx :=
    Transaction.fromProto_toProto (by decide +kernel)
  have hlong : Transaction.fromProto .plain long = .ok tx :=
    (fromProto_of_setBytes_eq (Address.setBytes_eq_iff.2 (by decide +kernel))).trans hdecode
  exact ⟨rfl, accepts_iff.2 hlong, accepts_iff.2 hdecode, by decide +kernel⟩

end Recipients

end GoMedibloc
