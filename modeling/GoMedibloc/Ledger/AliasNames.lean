import GoMedibloc.Ledger.Registry

/-!
# Names of aliases

An alias is meant to be a name of 12 to 16 characters, lowercase letters and digits of ASCII with a
letter at the front (`IsAliasName`).  `validateAlias` walks over the bytes of a name and takes each
byte for a code point, which it looks up in the tables of letters and numbers of `unicode`.  In these
tables there are more lowercase letters and more numbers below 256 than those of ASCII.  So a byte of
a multi-byte character may pass for a letter or a number of Latin-1, and a name made up of such bytes
is accepted although it is not a name of that form (`Misread`).

`validateAlias_iff` says that the names accepted are those of the form and the misread ones.  Along a
run without misread names only names of the form are registered.
-/

namespace GoMedibloc

open Except

/-! ## The names -/

/-- A lowercase letter of ASCII. -/
def IsLetter (b : UInt8) : Prop := 0x61 ≤ b ∧ b ≤ 0x7a

/-- A digit of ASCII. -/
def IsDigit (b : UInt8) : Prop := 0x30 ≤ b ∧ b ≤ 0x39

/-- The other lowercase letters of Latin-1: µ, from ß to ö, and from ø on. -/
def IsLatinLetter (b : UInt8) : Prop := b = 0xb5 ∨ (0xdf ≤ b ∧ b ≤ 0xf6) ∨ 0xf8 ≤ b

/-- The other numbers of Latin-1: three superscripts and three fractions. -/
def IsLatinNumber (b : UInt8) : Prop := b = 0xb2 ∨ b = 0xb3 ∨ b = 0xb9 ∨ (0xbc ≤ b ∧ b ≤ 0xbe)

/-- 12 to 16 lowercase letters and digits of ASCII, with a letter at the front. -/
structure IsAliasName (name : Bytes) : Prop where
  long : 12 ≤ name.length
  short : name.length ≤ 16
  chars : ∀ b ∈ name, IsLetter b ∨ IsDigit b
  first : ∀ b ∈ name.head?, IsLetter b

/-- The name is one of Latin-1 letters and numbers, with a letter at the front, and not of ASCII
only. -/
structure Misread (name : Bytes) : Prop where
  long : 12 ≤ name.length
  short : name.length ≤ 16
  chars : ∀ b ∈ name, IsLetter b ∨ IsDigit b ∨ IsLatinLetter b ∨ IsLatinNumber b
  first : ∀ b ∈ name.head?, IsLetter b ∨ IsLatinLetter b
  latin : ∃ b ∈ name, IsLatinLetter b ∨ IsLatinNumber b

section Bytes

variable {b : UInt8} {name : Bytes}

lemma isLower_iff : isLower b = true ↔ IsLetter b ∨ IsLatinLetter b := by
  simp only [isLower, IsLetter, IsLatinLetter, Bool.or_eq_true, Bool.and_eq_true, decide_eq_true_eq,
    beq_iff_eq, or_assoc]

lemma isNumber_iff : isNumber b = true ↔ IsDigit b ∨ IsLatinNumber b := by
  simp only [isNumber, IsDigit, IsLatinNumber, Bool.or_eq_true, Bool.and_eq_true,
    decide_eq_true_eq, beq_iff_eq, or_assoc]

/-- No letter is a number. -/
lemma not_isNumber_of_isLower (h : isLower b = true) : isNumber b = false := by
  revert h
  revert b
  decide +kernel

/-- A byte of ASCII is none of the other letters and numbers of Latin-1. -/
lemma not_latin (h : IsLetter b ∨ IsDigit b) : ¬ (IsLatinLetter b ∨ IsLatinNumber b) := by
  simp only [IsLetter, IsDigit, IsLatinLetter, IsLatinNumber, UInt8.le_iff_toNat_le,
    ← UInt8.toNat_inj] at h ⊢
  simp only [UInt8.reduceToNat] at h ⊢
  omega

/-- The loop of `validateAlias`, behind the first byte. -/
lemma validateAliasChars_succ (i : ℕ) :
    validateAliasChars (i + 1) name = .ok () ↔
      ∀ b ∈ name, isNumber b = true ∨ isLower b = true := by
  induction name generalizing i with
  | nil => exact iff_of_true rfl fun b hb => absurd hb List.not_mem_nil
  | cons ch rest ih =>
      rw [validateAliasChars, bind_eq_ok_iff]
      simp only [bind_eq_ok_iff, failIf_eq_ok, ih, List.forall_mem_cons, Bool.or_eq_true, not_not,
        Nat.add_eq_zero_iff, one_ne_zero, and_false, false_and, not_false_eq_true, true_and,
        exists_const]

/-- The bytes that pass the loop of `validateAlias`. -/
lemma validateAliasChars_zero :
    validateAliasChars 0 name = .ok () ↔
      (∀ b ∈ name, isNumber b = true ∨ isLower b = true) ∧
        ∀ b ∈ name.head?, isNumber b = false := by
  cases name with
  | nil => exact iff_of_true rfl ⟨fun b hb => absurd hb List.not_mem_nil, nofun⟩
  | cons ch rest =>
      rw [validateAliasChars, bind_eq_ok_iff]
      simp only [bind_eq_ok_iff, failIf_eq_ok, zero_add, validateAliasChars_succ, true_and,
        List.forall_mem_cons, Bool.or_eq_true, not_not, exists_const, List.head?_cons,
        Option.mem_def, Option.some_inj, forall_eq', Bool.not_eq_true]
      tauto

/-- What `validateAlias` checks. -/
lemma validateAlias_spec :
    validateAlias name = .ok () ↔ (12 ≤ name.length ∧ name.length ≤ 16) ∧
      (∀ b ∈ name, isNumber b = true ∨ isLower b = true) ∧ ∀ b ∈ name.head?, isNumber b = false := by
  rw [validateAlias, bind_eq_ok_iff]
  simp only [bind_eq_ok_iff, failIf_eq_ok, validateAliasChars_zero, not_lt, exists_const, and_assoc]

/-- **The names that `validateAlias` accepts.** -/
lemma validateAlias_iff : validateAlias name = .ok () ↔ IsAliasName name ∨ Misread name := by
  rw [validateAlias_spec]
  constructor
  · rintro ⟨⟨hlong, hshort⟩, hchars, hfirst⟩
    -- what is not a number at the front is a letter
    have hletter : ∀ b ∈ name.head?, IsLetter b ∨ IsLatinLetter b := by
      intro b hb
      have hlower := (hchars b (List.mem_of_mem_head? hb)).resolve_left (by rw [hfirst b hb]; nofun)
      exact isLower_iff.1 hlower
    have hlatin : ∀ b ∈ name, IsLetter b ∨ IsDigit b ∨ IsLatinLetter b ∨ IsLatinNumber b := by
      intro b hb
      have hclass := hchars b hb
      rw [isNumber_iff, isLower_iff] at hclass
      tauto
    by_cases hascii : ∃ b ∈ name, IsLatinLetter b ∨ IsLatinNumber b
    · exact .inr ⟨hlong, hshort, hlatin, hletter, hascii⟩
    · have hnone : ∀ b ∈ name, ¬ (IsLatinLetter b ∨ IsLatinNumber b) := fun b hb h =>
        hascii ⟨b, hb, h⟩
      refine .inl ⟨hlong, hshort, fun b hb => ?_, fun b hb => ?_⟩
      · have hclass := hlatin b hb
        have hnot := hnone b hb
        tauto
      · exact (hletter b hb).resolve_right fun h => hnone b (List.mem_of_mem_head? hb) (.inl h)
  · rintro (h | h)
    · refine ⟨⟨h.long, h.short⟩, fun b hb => ?_, fun b hb => ?_⟩
      · rw [isNumber_iff, isLower_iff]
        have hclass := h.chars b hb
        tauto
      · exact not_isNumber_of_isLower (isLower_iff.2 (.inl (h.first b hb)))
    · refine ⟨⟨h.long, h.short⟩, fun b hb => ?_, fun b hb => ?_⟩
      · rw [isNumber_iff, isLower_iff]
        have hclass := h.chars b hb
        tauto
      · exact not_isNumber_of_isLower (isLower_iff.2 (h.first b hb))

/-- A misread name is not of the form. -/
lemma Misread.not_isAliasName (h : Misread name) : ¬ IsAliasName name := fun hname => by
  obtain ⟨b, hb, hlatin⟩ := h.latin
  exact not_latin (hname.chars b hb) hlatin

end Bytes

/-! ## The constructor -/

section Constructor

variable {env : Env} {tx : Transaction} {name : Bytes}

/-- For a payload that decodes to a name, the constructor validates the name. -/
lemma newRegisterAliasTx_iff (hsize : tx.payload.length ≤ maxPayloadSize)
    (hname : bytesToTransactionPayload env.registerAliasPayload tx.payload = .ok name) :
    (∃ exeTx, newRegisterAliasTx env tx = .ok exeTx) ↔ validateAlias name = .ok () := by
  have hcheck : checkPayloadSize tx = .ok () := failIf_eq_ok.2 (not_lt.2 hsize)
  rw [newRegisterAliasTx, bind_of_ok hcheck, bind_of_ok hname]
  constructor
  · rintro ⟨exeTx, h⟩
    obtain ⟨_, hvalid, -⟩ := bind_eq_ok_iff.1 h
    exact hvalid
  · intro hvalid
    rw [bind_of_ok hvalid]
    exact ⟨_, rfl⟩

/-- The name that a transaction registers is in its payload and has been validated. -/
lemma name_of_txConv {exeTx : ExecutableTx} {addr : Address} {collateral : Uint128}
    (h : txConv env tx = .ok exeTx) (hop : exeTx.op = .registerAlias addr collateral name) :
    bytesToTransactionPayload env.registerAliasPayload tx.payload = .ok name ∧
      validateAlias name = .ok () := by
  have htype : tx.txType = .registerAlias := by
    rw [← (txConv_spec h).kind, hop]
    rfl
  rw [txConv, htype] at h
  obtain ⟨-, -, h⟩ := bind_eq_ok_iff.1 h
  obtain ⟨name', hname', h⟩ := bind_eq_ok_iff.1 h
  obtain ⟨_, hvalid, h⟩ := bind_eq_ok_iff.1 h
  cases h
  cases hop
  exact ⟨hname', hvalid⟩

end Constructor

/-! ## Runs -/

/-- All names in the registry are of the form. -/
structure Registry.WellNamed (g : Registry) : Prop where
  aliases : ∀ name owner, g.aliases name = some owner → IsAliasName name
  records : ∀ addr record, (g.data addr).aliasRecord = some record → IsAliasName record.aliasName

/-- The payload of the transaction does not decode to a misread name. -/
def ReadRight (env : Env) (tx : Transaction) : Prop :=
  ∀ name, bytesToTransactionPayload env.registerAliasPayload tx.payload = .ok name → ¬ Misread name

section Runs

variable {env : Env} {tick : ℤ → ℤ → Prop} {rule : ℕ → Transaction → Prop} {l l' : Ledger}
  {g g' : Registry} {op : Operation} {ts : ℤ}

lemma Registry.wellNamed_empty : Registry.empty.WellNamed := ⟨nofun, nofun⟩

/-- Data with the same record leaves the names alone. -/
lemma Registry.WellNamed.of_records (h : g.WellNamed) (haliases : g'.aliases = g.aliases)
    (hrecords : ∀ addr, (g'.data addr).aliasRecord = (g.data addr).aliasRecord) : g'.WellNamed := by
  refine ⟨fun name owner hname => ?_, fun addr record hrecord => ?_⟩
  · rw [haliases] at hname
    exact h.aliases name owner hname
  · rw [hrecords] at hrecord
    exact h.records addr record hrecord

/-- **One execution** keeps the names of the form if it registers no other name. -/
lemma RegistryStep.wellNamed (h : RegistryStep ts g op g') (hg : g.WellNamed)
    (hop : ∀ addr collateral name, op = .registerAlias addr collateral name → IsAliasName name) :
    g'.WellNamed := by
  cases h with
  | keep hop => exact hg
  | @registerAlias addr collateral name hnone hfree =>
      have hname := hop addr collateral name rfl
      refine ⟨fun name' owner hname' => ?_, fun addr' record hrecord => ?_⟩
      · by_cases heq : name' = name
        · rw [heq]
          exact hname
        · refine hg.aliases name' owner ?_
          rwa [← Function.update_of_ne heq (some addr) g.aliases]
      · by_cases heq : addr' = addr
        · rw [heq] at hrecord
          simp only [Registry.setData_self, Option.some_inj] at hrecord
          rw [← hrecord]
          exact hname
        · refine hg.records addr' record ?_
          rwa [← Registry.setData_of_ne heq]
  | @deregisterAlias addr record hrecord howner =>
      refine ⟨fun name' owner hname' => ?_, fun addr' record' hrecord' => ?_⟩
      · by_cases heq : name' = record.aliasName
        · rw [heq]
          exact hg.records addr record hrecord
        · refine hg.aliases name' owner ?_
          rwa [← Function.update_of_ne heq none g.aliases]
      · by_cases heq : addr' = addr
        · rw [heq] at hrecord'
          simp only [Registry.setData_self, reduceCtorEq] at hrecord'
        · refine hg.records addr' record' ?_
          rwa [← Registry.setData_of_ne heq]
  | addCertification hreceived hissued =>
      refine hg.of_records rfl fun addr => ?_
      rw [Registry.issue_aliasRecord, Registry.receive_aliasRecord]
  | revokeCertification hcert hissuer hrevoked hexpired =>
      refine hg.of_records rfl fun addr => ?_
      rw [Registry.receive_aliasRecord, Registry.issue_aliasRecord]
  | becomeCandidate hnone halias =>
      refine hg.of_records rfl fun addr => ?_
      refine Registry.setData_proj (f := AccountData.aliasRecord) ?_ addr
      rfl
  | quitCandidacy hid hc =>
      refine hg.of_records rfl fun addr => ?_
      refine Registry.setData_proj (f := AccountData.aliasRecord) ?_ addr
      rfl

/-- **Along a run without misread names** all registered names are of the form. -/
lemma Reachable.wellNamed
    (h : Reachable env tick (fun height tx => rule height tx ∧ ReadRight env tx) l) :
    l.state.registry.WellNamed := by
  induction h with
  | refl => exact Registry.wellNamed_empty
  | tail _ hstep ih =>
      obtain ⟨-, hregistry⟩ | ⟨tx, r, exeTx, hrule, -, -, hconv, hregistry⟩ := hstep.registry_cases
      · rw [hregistry]
        exact ih
      · obtain hregistry | hregistry := hregistry
        · rw [hregistry]
          exact ih
        · refine hregistry.wellNamed ih fun addr collateral name hop => ?_
          obtain ⟨hname, hvalid⟩ := name_of_txConv hconv hop
          exact (validateAlias_iff.1 hvalid).resolve_right (hrule.2 name hname)

end Runs

/-- **Only names of the form are registered, unless they are misread.**  For every payload that is
not too large and decodes to a name, the constructor accepts exactly the names of 12 to 16 lowercase
letters and digits with a letter at the front, if and only if the name is not misread.  And in every
run whose transactions have no misread names, every registered name is of that form. -/
theorem aliases_well_formed_iff_not_misread (env : Env) :
    (∀ tx name, tx.payload.length ≤ maxPayloadSize →
      bytesToTransactionPayload env.registerAliasPayload tx.payload = .ok name →
        (((∃ exeTx, newRegisterAliasTx env tx = .ok exeTx) ↔ IsAliasName name) ↔ ¬ Misread name)) ∧
    ∀ (tick : ℤ → ℤ → Prop) (rule : ℕ → Transaction → Prop) (l : Ledger),
      Reachable env tick (fun height tx => rule height tx ∧ ReadRight env tx) l →
      (∀ name owner, l.state.accState.aliases.lookup name = some owner → IsAliasName name) ∧
      ∀ addr acc record, l.state.account? addr = some acc → acc.aliasRecord = some record →
        IsAliasName record.aliasName := by
  refine ⟨fun tx name hsize hname => ?_, fun tick rule l hl => ?_⟩
  · rw [newRegisterAliasTx_iff hsize hname, validateAlias_iff]
    constructor
    · exact fun hiff hmisread => hmisread.not_isAliasName (hiff.1 (.inr hmisread))
    · exact fun hnot => or_iff_left hnot
  · refine ⟨hl.wellNamed.aliases, fun addr acc record hacc hrecord => ?_⟩
    refine hl.wellNamed.records addr record ?_
    rw [BlockState.registry_data hacc]
    exact hrecord

/-- Ten letters and one character of two bytes, U+07F2: the first byte passes for a letter, the
second for a number, and the name is registered. -/
theorem misread_alias_registered :
    let name : Bytes := List.replicate 10 0x61 ++ [0xdf, 0xb2]
    ∃ l, Reachable .plain (· < ·) (Admitted .plain 0) l ∧
      l.state.accState.aliases.lookup name = some (Plain.address 1) ∧ ¬ IsAliasName name := by
  intro name
  have hrule : ∀ tx ∈ [Plain.distribution 1 (Plain.address 1) (.ofUint 3000000000000000000),
      Plain.signed ⟨.registerAlias, Plain.address 1, .none, .ofUint 1000000000000000000, 1, 0, name⟩],
      Admitted .plain 0 genesisHeight tx := by
    decide +kernel
  have hrun : (Ledger.start.acceptAll .plain
      [Plain.distribution 1 (Plain.address 1) (.ofUint 3000000000000000000),
        Plain.signed
          ⟨.registerAlias, Plain.address 1, .none, .ofUint 1000000000000000000, 1, 0, name⟩]).map
        (fun l => l.state.accState.aliases.lookup name) = .ok (some (Plain.address 1)) := by
    decide +kernel
  obtain ⟨l, hl, hlookup⟩ := Reachable.of_acceptAll hrule hrun
  refine ⟨l, hl, hlookup, fun hname => ?_⟩
  exact not_latin (hname.chars 0xdf (by decide)) (.inl (.inr (.inl (by decide))))

end GoMedibloc
