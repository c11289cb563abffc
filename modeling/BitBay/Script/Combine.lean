import BitBay.Script.Signing

/-!
# Scripts are combined

`CombineSignatures` puts two scripts of one input together. It keeps the signatures of both in the
order of the keys, and as many of them as the output asks for. So what two parties have signed
apart is not lost: the script that it makes is complete exactly if both together have signed
with enough of the keys.
-/
namespace BitBay

open List

/-! ## Combining -/

/-- The type and the solutions that `Solver` leaves. Those of a script for several keys are left
behind when its numbers are wrong. -/
def firstTemplate (s : CScript) :
    List (TxnOutType × List TemplateOp) → Option (TxnOutType × List Vchtype)
  | [] => none
  | (type, ops) :: rest =>
    match matchTemplate ops s with
    | none => firstTemplate s rest
    | some sols => some (type, sols)

def solverLeaves (s : CScript) : Option (TxnOutType × List Vchtype) :=
  if s.isPayToScriptHash then some (.TX_SCRIPTHASH, [(s.drop 2).take 20])
  else firstTemplate s mTemplates

/-- A signature goes to the first key without one that it is a signature of. -/
def assignSig (keys : List Vchtype) (check : Vchtype → Vchtype → Bool)
    (sigs : Vchtype → Option Vchtype) (sig : Vchtype) : Vchtype → Option Vchtype :=
  match keys.find? fun pubkey => (sigs pubkey).isNone && check sig pubkey with
  | none => sigs
  | some pubkey => Function.update sigs pubkey (some sig)

section Model

def vchLe (vch vch' : Vchtype) : Bool := !lex vch' vch fun b c => decide (b.toNat < c.toNat)

variable (sp : ScriptParams)

def combineMultisig (scriptPubKey : CScript) (txTo : CTransaction) (nIn : ℕ)
    (vSolutions sigs1 sigs2 : List Vchtype) : CScript :=
  let allsigs := ((sigs1 ++ sigs2).filter (· ≠ [])).dedup.insertionSort (vchLe · ·)
  let nSigsRequired := ((vSolutions.headD []).headD 0).toNat
  let pubkeys := (vSolutions.drop 1).dropLast
  let check (sig pubkey : Vchtype) : Bool := checkSig sp sig pubkey scriptPubKey txTo nIn 0
  let sigs := allsigs.foldl (assignSig pubkeys check) fun _ => none
  let merged := (pubkeys.filterMap sigs).take nSigsRequired
  pushAll ([] :: (merged ++ replicate (nSigsRequired - merged.length) []))

def combineStacks (scriptPubKey : CScript) (txTo : CTransaction) (nIn : ℕ)
    (solved : Option (TxnOutType × List Vchtype)) : List Vchtype → List Vchtype → CScript
  | stack1, stack2 =>
    match solved with
    | none | some (.TX_NULL_DATA, _) =>
      if stack2.length ≤ stack1.length then pushAll stack1.reverse else pushAll stack2.reverse
    | some (.TX_PUBKEY, _) | some (.TX_PUBKEYHASH, _) =>
      if stack1.getLastD [] = [] then pushAll stack2.reverse else pushAll stack1.reverse
    | some (.TX_MULTISIG, vSolutions) =>
      combineMultisig sp scriptPubKey txTo nIn vSolutions stack1.reverse stack2.reverse
    | some (.TX_SCRIPTHASH, _) =>
      match stack1 with
      | [] => pushAll stack2.reverse
      | spk :: below1 =>
        if spk = [] then pushAll stack2.reverse
        else
          match stack2 with
          | [] => pushAll (spk :: below1).reverse
          | spk2 :: below2 =>
            if spk2 = [] then pushAll (spk :: below1).reverse
            else combineStacks spk txTo nIn (solverLeaves spk) below1 below2 ++ pushVch spk

/-- The stack that an evaluation leaves, also when it fails. -/
def Eval.stack : Eval → List Vchtype
  | .ok st => st.stack
  | .error st => st.stack

def ScriptCall.values : ScriptCall := ⟨{ vin := [], vout := [] }, 0, SCRIPT_VERIFY_NONE, 0⟩

def combineSignatures (scriptPubKey : CScript) (txTo : CTransaction) (nIn : ℕ)
    (scriptSig1 scriptSig2 : CScript) : CScript :=
  combineStacks sp scriptPubKey txTo nIn (solverLeaves scriptPubKey)
    (Eval.stack (evalScript sp .values [] scriptSig1 ∅))
    (Eval.stack (evalScript sp .values [] scriptSig2 ∅))

end Model

/-! ## What solver leaves -/

theorem firstTemplate_of_scanTemplates {s : CScript} {r : TxnOutType × List Vchtype}
    {templates : List (TxnOutType × List TemplateOp)} (h : scanTemplates s templates = some r) :
    firstTemplate s templates = some r := by
  induction templates with
  | nil => cases h
  | cons template rest ih =>
    obtain ⟨type, ops⟩ := template
    rw [scanTemplates] at h
    rw [firstTemplate]
    cases hmatch : matchTemplate ops s with
    | none =>
      simp only [hmatch] at h ⊢
      exact ih h
    | some sols =>
      simp only [hmatch] at h ⊢
      split_ifs at h
      exact h

theorem solverLeaves_of_solver {s : CScript} {r : TxnOutType × List Vchtype}
    (h : solver s = some r) : solverLeaves s = some r := by
  unfold solver at h
  unfold solverLeaves
  split_ifs at h ⊢
  · exact h
  · exact firstTemplate_of_scanTemplates h

/-! ## Signatures that have been collected -/

structure Genuine (sp : ScriptParams) (txTo : CTransaction) (nIn : ℕ) (p : Payment)
    (R : Vchtype → Vchtype → Prop) : Prop where
  signatureOf : ∀ vchSig, ∀ key ∈ p.keys, R vchSig key →
    SignatureOf sp ⟨txTo, nIn, STANDARD_SCRIPT_VERIFY_FLAGS, 0⟩ (p.script sp) vchSig key
  own : ∀ vchSig key, R vchSig key → ∀ key' ∈ p.keys,
    checkSig sp vchSig key' (p.script sp) txTo nIn 0 = true → key' = key
  ne_id : ∀ vchSig key, R vchSig key → ∀ key' ∈ p.keys, vchSig ≠ (sp.Hash160 key').toBytes

/-- The values are a spend with signatures of keys from the set, in the order of the keys. They
are as many as the payment asks for, or no key of the set is missing. -/
structure Payment.Collected (p : Payment) (R : Vchtype → Vchtype → Prop) (K : Set Vchtype)
    (vchSigs chosen : List Vchtype) : Prop where
  sigs : Forall₂ R vchSigs chosen
  sub : chosen <+ p.keys
  le : chosen.length ≤ p.nRequired
  mem : ∀ key ∈ chosen, key ∈ K
  all : (∀ key ∈ p.keys, key ∈ K → key ∈ chosen) ∨ chosen.length = p.nRequired

section Collected

variable {sp : ScriptParams} {txTo : CTransaction} {nIn : ℕ} {p : Payment}
  {R : Vchtype → Vchtype → Prop} {K K1 K2 : Set Vchtype}
  {vchSigs chosen vchSigs1 vchSigs2 chosen1 chosen2 : List Vchtype}

/-- There are enough signatures exactly if there are enough keys in the set. -/
theorem Payment.Collected.length_eq_iff [DecidablePred (· ∈ K)] (hp : p.Valid)
    (h : p.Collected R K vchSigs chosen) :
    vchSigs.length = p.nRequired ↔ p.nRequired ≤ (p.keys.filter (· ∈ K)).length := by
  have hsub : chosen.Subperm (p.keys.filter (· ∈ K)) :=
    (hp.nodup.sublist h.sub).subperm fun key hkey =>
      mem_filter.mpr ⟨h.sub.subset hkey, by simpa using h.mem key hkey⟩
  have hle := hsub.length_le
  rw [h.sigs.length_eq]
  constructor
  · intro heq
    omega
  · intro henough
    rcases h.all with hall | hfull
    · have hfilter : (p.keys.filter (· ∈ K)).Subperm chosen :=
        (hp.nodup.filter _).subperm fun key hkey =>
          hall key (mem_filter.mp hkey).1 (by simpa using (mem_filter.mp hkey).2)
      have := hfilter.length_le
      have := h.le
      omega
    · exact hfull

theorem Payment.Collected.isEmpty (h : p.Collected R K [] chosen) (hpos : 1 ≤ p.nRequired) :
    chosen = [] ∧ ∀ key ∈ p.keys, key ∉ K := by
  have hsigs := h.sigs
  cases hsigs
  refine ⟨rfl, fun key hkey hmem => ?_⟩
  rcases h.all with hall | hfull
  · exact absurd (hall key hkey hmem) not_mem_nil
  · rw [length_nil] at hfull
    omega

/-! ## Merging -/

variable {keys : List Vchtype} {check : Vchtype → Vchtype → Bool}

/-- The key whose signature it is takes it, if it has none yet. -/
theorem assignSig_eq {sig key : Vchtype} (hkey : key ∈ keys)
    (hcheck : ∀ key' ∈ keys, check sig key' = true ↔ key' = key)
    (sigs : Vchtype → Option Vchtype) :
    assignSig keys check sigs sig =
      if sigs key = none then Function.update sigs key (some sig) else sigs := by
  unfold assignSig
  cases hfind : keys.find? fun pubkey => (sigs pubkey).isNone && check sig pubkey with
  | none =>
    have hnone := find?_eq_none.mp hfind key hkey
    simp only [(hcheck key hkey).mpr rfl, Bool.and_true, Option.isNone_iff_eq_none] at hnone
    simp [hnone]
  | some pubkey =>
    have hmem := mem_of_find?_eq_some hfind
    have hsome := find?_some hfind
    simp only [Bool.and_eq_true, Option.isNone_iff_eq_none] at hsome
    obtain rfl := (hcheck pubkey hmem).mp hsome.2
    simp [hsome.1]

/-- Every key with a signature has one in the end, and none has one of another key. -/
theorem foldl_assignSig {allsigs : List Vchtype}
    (hcheck : ∀ sig ∈ allsigs, ∃ key ∈ keys, R sig key ∧
      ∀ key' ∈ keys, (check sig key' = true ↔ key' = key) ∧ (R sig key' → key' = key))
    (sigs : Vchtype → Option Vchtype) {key : Vchtype} (hkey : key ∈ keys) :
    ((allsigs.foldl (assignSig keys check) sigs key).isSome = true ↔
        (sigs key).isSome = true ∨ ∃ sig ∈ allsigs, R sig key) ∧
      ∀ sig, allsigs.foldl (assignSig keys check) sigs key = some sig →
        sigs key = some sig ∨ R sig key := by
  induction allsigs generalizing sigs with
  | nil => exact ⟨by simp, fun sig h => .inl h⟩
  | cons sig allsigs ih =>
    obtain ⟨owner, howner, hsig, hunique⟩ := hcheck sig mem_cons_self
    obtain ⟨hisSome, hrel⟩ := ih (fun sig' hmem => hcheck sig' (mem_cons_of_mem _ hmem))
      (assignSig keys check sigs sig)
    have hassign := assignSig_eq howner (fun key' hmem => (hunique key' hmem).1) sigs
    rw [foldl_cons]
    rw [hassign] at hisSome hrel ⊢
    by_cases heq : key = owner
    · subst heq
      cases hold : sigs key with
      | none =>
        simp only [hold, if_true, Function.update_self] at hisSome hrel ⊢
        refine ⟨by simp [hisSome, hsig], fun sig' h => ?_⟩
        rcases hrel sig' h with hnew | hR
        · exact .inr (Option.some_inj.mp hnew ▸ hsig)
        · exact .inr hR
      | some old =>
        simp only [hold, reduceCtorEq, if_false, Option.isSome_some, true_or, iff_true] at hisSome hrel ⊢
        exact ⟨hisSome, hrel⟩
    · have hother : (if sigs owner = none then Function.update sigs owner (some sig) else sigs) key =
          sigs key := by split_ifs <;> simp [heq]
      have hnot : ¬R sig key := fun hR => heq ((hunique key hkey).2 hR)
      rw [hother] at hisSome hrel
      refine ⟨?_, hrel⟩
      rw [hisSome]
      simp [hnot]

/-- The signatures among the values of a spend. -/
theorem mem_of_isSpend {nRequired : ℕ} {values : List Vchtype}
    (hspend : (Payment.multisig nRequired keys).IsSpend vchSigs values)
    (hne : ∀ sig ∈ vchSigs, sig ≠ []) (sig : Vchtype) :
    sig ∈ values ∧ sig ≠ [] ↔ sig ∈ vchSigs := by
  rcases hspend with ⟨rfl, rfl⟩ | ⟨missing, -, rfl⟩
  · simp
  · simp only [mem_cons, mem_append, mem_replicate]
    constructor
    · rintro ⟨rfl | hmem | ⟨-, rfl⟩, hsig⟩
      · exact absurd rfl hsig
      · exact hmem
      · exact absurd rfl hsig
    · exact fun hmem => ⟨.inr (.inl hmem), hne sig hmem⟩

theorem Genuine.ne_nil (hR : Genuine sp txTo nIn p R) (h : p.Collected R K vchSigs chosen) :
    ∀ sig ∈ vchSigs, sig ≠ [] := by
  intro sig hsig
  obtain ⟨key, hkey, hRkey⟩ := Matching.exists_of_mem_sublistForall₂
    (sublistForall₂_iff.mpr ⟨chosen, h.sigs, h.sub⟩) hsig
  have hempty : hasFlag STANDARD_SCRIPT_VERIFY_FLAGS SCRIPT_VERIFY_ALLOW_EMPTY_SIG = false := by
    decide
  exact ((hR.signatureOf sig key hkey hRkey).bytes hempty).ne_nil

theorem Genuine.checkSig_iff (hR : Genuine sp txTo nIn p R) {sig key : Vchtype}
    (hkey : key ∈ p.keys) (hsig : R sig key) {key' : Vchtype} (hkey' : key' ∈ p.keys) :
    checkSig sp sig key' (p.script sp) txTo nIn 0 = true ↔ key' = key := by
  refine ⟨hR.own sig key hsig key' hkey', ?_⟩
  rintro rfl
  exact (Bool.and_eq_true_iff.mp (hR.signatureOf sig key' hkey hsig)).2

theorem Genuine.unique (hR : Genuine sp txTo nIn p R) {sig key key' : Vchtype}
    (hkey : key ∈ p.keys) (hkey' : key' ∈ p.keys) (hsig : R sig key) (hsig' : R sig key') :
    key' = key :=
  (hR.checkSig_iff hkey hsig hkey').mp ((hR.checkSig_iff hkey' hsig' hkey').mpr rfl)

/-- The keys that have signed are those of the signatures. -/
theorem Genuine.signed_iff (hR : Genuine sp txTo nIn p R) (h : p.Collected R K vchSigs chosen)
    {key : Vchtype} (hkey : key ∈ p.keys) : (∃ sig ∈ vchSigs, R sig key) ↔ key ∈ chosen := by
  constructor
  · rintro ⟨sig, hsig, hRkey⟩
    obtain ⟨key', hkey', hRkey'⟩ := Matching.exists_of_mem_sublistForall₂
      (sublistForall₂_iff.mpr ⟨chosen, h.sigs, Sublist.refl chosen⟩) hsig
    rwa [hR.unique (h.sub.subset hkey') hkey hRkey' hRkey]
  · exact fun hmem => Matching.exists_of_mem_forall₂ h.sigs hmem

/-- The first keys of two collections together. -/
theorem Payment.Collected.union {allKeys merged : List Vchtype} (hp : p.Valid)
    (h1 : p.Collected R K1 vchSigs1 chosen1) (h2 : p.Collected R K2 vchSigs2 chosen2)
    (hsub : allKeys <+ p.keys)
    (hmem : ∀ key ∈ p.keys, key ∈ allKeys ↔ key ∈ chosen1 ∨ key ∈ chosen2)
    (hsigs : Forall₂ R merged allKeys) :
    p.Collected R (K1 ∪ K2) (merged.take p.nRequired) (allKeys.take p.nRequired) where
  sigs := forall₂_take p.nRequired hsigs
  sub := (take_sublist _ _).trans hsub
  le := length_take_le _ _
  mem key hkey := by
    have hkey' := (take_sublist _ _).subset hkey
    exact ((hmem key (hsub.subset hkey')).mp hkey').imp (h1.mem key) (h2.mem key)
  all := by
    by_cases hfull : p.nRequired ≤ allKeys.length
    · exact .inr (by rw [length_take]; omega)
    · have hall {K : Set Vchtype} {vchSigs chosen : List Vchtype}
          (h : p.Collected R K vchSigs chosen)
          (hchosen : ∀ key ∈ p.keys, key ∈ chosen → key ∈ allKeys) :
          ∀ key ∈ p.keys, key ∈ K → key ∈ allKeys := by
        rcases h.all with hall | hlength
        · exact fun key hkey hK => hchosen key hkey (hall key hkey hK)
        · have hsubperm : chosen.Subperm allKeys := (hp.nodup.sublist h.sub).subperm fun key hkey =>
            hchosen key (h.sub.subset hkey) hkey
          have := hsubperm.length_le
          omega
      rw [take_of_length_le (by omega)]
      refine .inl fun key hkey hK => ?_
      rcases hK with hK | hK
      · exact hall h1 (fun k hk hc => (hmem k hk).mpr (.inl hc)) key hkey hK
      · exact hall h2 (fun k hk hc => (hmem k hk).mpr (.inr hc)) key hkey hK

/-- `CombineMultisig` makes a script with the signatures of both. -/
theorem Genuine.combineMultisig_eq {nRequired : ℕ} {values1 values2 : List Vchtype}
    (hp : (Payment.multisig nRequired keys).Valid)
    (hR : Genuine sp txTo nIn (.multisig nRequired keys) R)
    (h1 : (Payment.multisig nRequired keys).Collected R K1 vchSigs1 chosen1)
    (h2 : (Payment.multisig nRequired keys).Collected R K2 vchSigs2 chosen2)
    (hspend1 : (Payment.multisig nRequired keys).IsSpend vchSigs1 values1)
    (hspend2 : (Payment.multisig nRequired keys).IsSpend vchSigs2 values2) :
    ∃ vchSigs chosen,
      combineMultisig sp ((Payment.multisig nRequired keys).script sp) txTo nIn
          ((Payment.multisig nRequired keys).solution sp).2 values1 values2 =
        pushAll ([] :: (vchSigs ++ replicate (nRequired - vchSigs.length) [])) ∧
      (Payment.multisig nRequired keys).Collected R (K1 ∪ K2) vchSigs chosen := by
  have hm : nRequired ≤ keys.length := hp.le_length
  have hn : keys.length ≤ 16 := hp.length_le
  have hsize : (UInt8.ofNat nRequired).toNat = nRequired :=
    UInt8.toNat_ofNat_of_lt' (by simp only [UInt8.size]; omega)
  set allsigs := ((values1 ++ values2).filter (· ≠ [])).dedup.insertionSort (vchLe · ·) with hall
  have hmem (sig : Vchtype) : sig ∈ allsigs ↔ sig ∈ vchSigs1 ∨ sig ∈ vchSigs2 := by
    rw [hall, mem_insertionSort, mem_dedup, mem_filter, mem_append, decide_eq_true_eq, or_and_right,
      mem_of_isSpend hspend1 (hR.ne_nil h1), mem_of_isSpend hspend2 (hR.ne_nil h2)]
  let check (sig pubkey : Vchtype) : Bool :=
    checkSig sp sig pubkey ((Payment.multisig nRequired keys).script sp) txTo nIn 0
  set sigs := allsigs.foldl (assignSig keys check) (fun _ => none) with hsigs
  have howner : ∀ sig ∈ allsigs, ∃ key ∈ keys, R sig key := by
    intro sig hsig
    have hfind {K : Set Vchtype} {vchSigs chosen : List Vchtype}
        (h : (Payment.multisig nRequired keys).Collected R K vchSigs chosen)
        (hsig : sig ∈ vchSigs) : ∃ key ∈ keys, R sig key :=
      Matching.exists_of_mem_sublistForall₂ (sublistForall₂_iff.mpr ⟨chosen, h.sigs, h.sub⟩) hsig
    exact ((hmem sig).mp hsig).elim (hfind h1) (hfind h2)
  have hfold {key : Vchtype} (hkey : key ∈ keys) := foldl_assignSig (R := R)
    (fun sig hsig => by
      obtain ⟨owner, howner, hRowner⟩ := howner sig hsig
      exact ⟨owner, howner, hRowner, fun key' hkey' => ⟨hR.checkSig_iff howner hRowner hkey',
        hR.unique howner hkey' hRowner⟩⟩) (fun _ => none) hkey
  have hfilter : ∀ key ∈ keys, key ∈ keys.filter (fun key => (sigs key).isSome) ↔
      key ∈ chosen1 ∨ key ∈ chosen2 := by
    intro key hkey
    rw [mem_filter, and_iff_right hkey, hsigs, (hfold hkey).1]
    simp only [Option.isSome_none, Bool.false_eq_true, false_or, hmem, or_and_right, exists_or]
    exact or_congr (hR.signed_iff h1 hkey) (hR.signed_iff h2 hkey)
  have hmatch : Forall₂ R (keys.filterMap sigs) (keys.filter fun key => (sigs key).isSome) :=
    Matching.forall₂_filterMap fun key hkey sig hsig =>
      ((hfold hkey).2 sig hsig).resolve_left (by simp)
  refine ⟨_, _, ?_, h1.union hp h2 filter_sublist hfilter hmatch⟩
  simp only [combineMultisig, Payment.solution, headD_cons, hsize, drop_succ_cons, drop_zero,
    dropLast_concat, Payment.nRequired]
  rfl

theorem Payment.Collected.union_of_nil (h1 : p.Collected R K1 [] chosen1) (hpos : 1 ≤ p.nRequired)
    (h2 : p.Collected R K2 vchSigs2 chosen2) : p.Collected R (K1 ∪ K2) vchSigs2 chosen2 where
  sigs := h2.sigs
  sub := h2.sub
  le := h2.le
  mem key hkey := .inr (h2.mem key hkey)
  all := h2.all.imp_left fun hall key hkey hK =>
    hall key hkey (hK.resolve_left ((h1.isEmpty hpos).2 key hkey))

theorem Payment.Collected.union_of_full (h1 : p.Collected R K1 vchSigs1 chosen1)
    (hfull : chosen1.length = p.nRequired) : p.Collected R (K1 ∪ K2) vchSigs1 chosen1 where
  sigs := h1.sigs
  sub := h1.sub
  le := h1.le
  mem key hkey := .inl (h1.mem key hkey)
  all := .inr hfull

/-- Two spends of a payment are combined to one with the signatures of both. -/
theorem Genuine.combineStacks_payment {values1 values2 : List Vchtype} (hp : p.Valid)
    (hR : Genuine sp txTo nIn p R) (h1 : p.Collected R K1 vchSigs1 chosen1)
    (h2 : p.Collected R K2 vchSigs2 chosen2) (hspend1 : p.IsSpend vchSigs1 values1)
    (hspend2 : p.IsSpend vchSigs2 values2) :
    ∃ vchSigs chosen values,
      combineStacks sp (p.script sp) txTo nIn (some (p.solution sp)) values1.reverse
        values2.reverse = pushAll values ∧
      p.IsSpend vchSigs values ∧ p.Collected R (K1 ∪ K2) vchSigs chosen := by
  have hne1 := hR.ne_nil h1
  cases p with
  | pubKey key =>
    obtain rfl : values1 = vchSigs1 := hspend1
    obtain rfl : values2 = vchSigs2 := hspend2
    rcases Payment.nil_or_single h1.sigs h1.sub with rfl | ⟨vchSig, rfl, -⟩
    · exact ⟨_, _, _, by simp [combineStacks, Payment.solution], rfl,
        h1.union_of_nil hp.pos h2⟩
    · have hsig := hne1 vchSig mem_cons_self
      exact ⟨_, _, _, by simp [combineStacks, Payment.solution, hsig], rfl,
        h1.union_of_full h1.sigs.length_eq.symm⟩
  | keyID key =>
    rcases Payment.nil_or_single h1.sigs h1.sub with rfl | ⟨vchSig, rfl, -⟩
    · obtain rfl : values1 = [] := hspend1
      exact ⟨_, _, _, by simp [combineStacks, Payment.solution], hspend2,
        h1.union_of_nil hp.pos h2⟩
    · have hsig := hne1 vchSig mem_cons_self
      obtain rfl : values1 = [vchSig, key] := hspend1
      exact ⟨[vchSig], _, [vchSig, key], by simp [combineStacks, Payment.solution, hsig], rfl,
        h1.union_of_full h1.sigs.length_eq.symm⟩
  | multisig nRequired keys =>
    obtain ⟨vchSigs, chosen, heq, hcollected⟩ :=
      hR.combineMultisig_eq hp h1 h2 hspend1 hspend2
    have hle : vchSigs.length ≤ nRequired := hcollected.sigs.length_eq ▸ hcollected.le
    refine ⟨vchSigs, chosen, _, ?_, .inr ⟨nRequired - vchSigs.length, .inr (by omega), rfl⟩,
      hcollected⟩
    rw [← heq]
    simp [combineStacks, Payment.solution]

end Collected

/-! ## Inputs -/

def StandardOutput.Holds (sp : ScriptParams) (o : StandardOutput) (R : Vchtype → Vchtype → Prop)
    (K : Set Vchtype) (scriptSig : CScript) : Prop :=
  ∃ vchSigs chosen values, scriptSig = pushAll values ∧ o.IsSpend sp vchSigs values ∧
    o.payment.Collected R K vchSigs chosen

section Holds

variable {sp : ScriptParams} {txTo : CTransaction} {nIn : ℕ} {o : StandardOutput}
  {R : Vchtype → Vchtype → Prop} {K K1 K2 : Set Vchtype}

/-- An input without a script. -/
theorem StandardOutput.holds_nil (sp : ScriptParams) (o : StandardOutput)
    (R : Vchtype → Vchtype → Prop) : o.Holds sp R ∅ [] := by
  refine ⟨[], [], [], rfl, ?_, .nil, nil_sublist _, Nat.zero_le _, by simp, .inl (by simp)⟩
  unfold IsSpend
  split_ifs
  · exact .inl ⟨rfl, rfl⟩
  · cases o.payment with
    | multisig nRequired keys => exact .inl ⟨rfl, rfl⟩
    | _ => rfl

/-- The input is verified exactly if the set has as many keys as the output asks for. -/
theorem StandardOutput.Holds.verifyScript_iff [DecidablePred (· ∈ K)] {scriptSig : CScript}
    (ho : o.Valid sp) (hR : Genuine sp txTo nIn o.payment R) (h : o.Holds sp R K scriptSig) :
    (verifyScript sp scriptSig (o.scriptPubKey sp)
        ⟨txTo, nIn, STANDARD_SCRIPT_VERIFY_FLAGS, 0⟩).isSome = true ↔
      o.payment.nRequired ≤ (o.payment.keys.filter (· ∈ K)).length := by
  obtain ⟨vchSigs, chosen, values, rfl, hspend, hcollected⟩ := h
  have hempty : hasFlag STANDARD_SCRIPT_VERIFY_FLAGS SCRIPT_VERIFY_ALLOW_EMPTY_SIG = false := by
    decide
  have hsigned := Matching.forall₂_of_mem hcollected.sigs fun vchSig key hkey hsig =>
    hR.signatureOf vchSig key (hcollected.sub.subset hkey) hsig
  have hid : ∀ vchSig ∈ vchSigs, ∀ key ∈ o.payment.keys, vchSig ≠ (sp.Hash160 key).toBytes := by
    intro vchSig hmem
    obtain ⟨key, -, hsig⟩ := Matching.exists_of_mem_sublistForall₂
      (sublistForall₂_iff.mpr ⟨chosen, hcollected.sigs, hcollected.sub⟩) hmem
    exact hR.ne_id vchSig key hsig
  rw [ho.verifyScript_iff hempty hspend hcollected.sub hsigned
    (hcollected.sigs.length_eq ▸ hcollected.le) hid]
  exact hcollected.length_eq_iff ho.payment

theorem Payment.script_ne_nil (sp : ScriptParams) (p : Payment) : p.script sp ≠ [] := by
  cases p <;> simp [Payment.script, CScript.setDestination, CScript.setMultisig]

/-- The values of a script that only pushes. -/
theorem StandardOutput.Holds.stack_eq {vchSigs chosen values : List Vchtype} (ho : o.Valid sp)
    (hR : Genuine sp txTo nIn o.payment R) (hspend : o.IsSpend sp vchSigs values)
    (h : o.payment.Collected R K vchSigs chosen) :
    Eval.stack (evalScript sp .values [] (pushAll values) ∅) = values.reverse := by
  have hempty : hasFlag STANDARD_SCRIPT_VERIFY_FLAGS SCRIPT_VERIFY_ALLOW_EMPTY_SIG = false := by
    decide
  have hpushable := ho.pushable hspend (fun vchSig hmem => by
    obtain ⟨key, hkey, hsig⟩ := Matching.exists_of_mem_sublistForall₂
      (sublistForall₂_iff.mpr ⟨chosen, h.sigs, h.sub⟩) hmem
    exact (hR.signatureOf vchSig key hkey hsig).bytes hempty) (h.sigs.length_eq ▸ h.le)
  rw [evalScript_pushAll hpushable, Eval.stack]

/-- Two scripts of an input are combined to one that holds the signatures of both. -/
theorem StandardOutput.Holds.combine {scriptSig1 scriptSig2 : CScript} (ho : o.Valid sp)
    (hR : Genuine sp txTo nIn o.payment R) (h1 : o.Holds sp R K1 scriptSig1)
    (h2 : o.Holds sp R K2 scriptSig2) :
    o.Holds sp R (K1 ∪ K2)
      (combineSignatures sp (o.scriptPubKey sp) txTo nIn scriptSig1 scriptSig2) := by
  obtain ⟨vchSigs1, chosen1, values1, rfl, hspend1, hcollected1⟩ := h1
  obtain ⟨vchSigs2, chosen2, values2, rfl, hspend2, hcollected2⟩ := h2
  rw [combineSignatures, Holds.stack_eq ho hR hspend1 hcollected1,
    Holds.stack_eq ho hR hspend2 hcollected2]
  have hspend1' := hspend1
  have hspend2' := hspend2
  unfold IsSpend at hspend1' hspend2'
  cases hscript : o.fScriptHash with
  | false =>
    simp only [hscript, Bool.false_eq_true, if_false] at hspend1' hspend2'
    obtain ⟨vchSigs, chosen, values, heq, hspend, hcollected⟩ :=
      hR.combineStacks_payment ho.payment hcollected1 hcollected2 hspend1' hspend2'
    have hpubkey : o.scriptPubKey sp = o.payment.script sp := by simp [scriptPubKey, hscript]
    rw [hpubkey, solverLeaves_of_solver (Payment.solver_script ho.payment), heq]
    exact ⟨vchSigs, chosen, values, rfl, by simpa [IsSpend, hscript] using hspend, hcollected⟩
  | true =>
    simp only [hscript, if_true] at hspend1' hspend2'
    have hsolver : solverLeaves (o.scriptPubKey sp) =
        some (.TX_SCRIPTHASH, [(sp.Hash160 (o.payment.script sp)).toBytes]) := by
      rw [scriptPubKey, hscript, if_pos rfl]
      exact solverLeaves_of_solver (solver_scriptID _)
    have hne := Payment.script_ne_nil sp o.payment
    rw [hsolver]
    rcases hspend1' with ⟨rfl, rfl⟩ | ⟨below1, rfl, hbelow1⟩
    · exact ⟨_, _, _, by simp [combineStacks], hspend2,
        hcollected1.union_of_nil ho.payment.pos hcollected2⟩
    rcases hspend2' with ⟨rfl, rfl⟩ | ⟨below2, rfl, hbelow2⟩
    · exact ⟨_, _, _, by simp [combineStacks, hne], hspend1,
        Set.union_comm K1 K2 ▸ hcollected2.union_of_nil ho.payment.pos hcollected1⟩
    obtain ⟨vchSigs, chosen, values, heq, hspend, hcollected⟩ :=
      hR.combineStacks_payment ho.payment hcollected1 hcollected2 hbelow1 hbelow2
    refine ⟨vchSigs, chosen, values ++ [o.payment.script sp], ?_, ?_, hcollected⟩
    · simp [combineStacks, hne, solverLeaves_of_solver (Payment.solver_script ho.payment), heq,
        pushAll]
    · simpa [IsSpend, hscript] using hspend

end Holds

end BitBay
