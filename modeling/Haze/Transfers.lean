import Haze.Mint

/-!
# What a transfer, a listing and a stake bind

`TransferNameOp::signing_message`, `Listing::signing_message`, `cancel_signing_message` and
`stake_registration_message` have at most one field without a length, the identifier, and everything behind
it has its place when it is counted from the end. The two conditions of an asset transfer are there or not,
so behind the asset id only the tags say where a field ends.
-/

namespace Haze

variable {P : Crypto}

/-! ## Fields at the end of a message

A text followed by fields of fixed lengths: the fields can be read from the end. -/

theorem append_toBytes_inj {front front' : List UInt8} {c c' : Commitment P}
    (h : front ++ c.toBytes = front' ++ c'.toBytes) : front = front' ∧ c = c' := by
  obtain ⟨hfront, hc⟩ := List.append_inj' h
    ((Commitment.length_toBytes c).trans (Commitment.length_toBytes c').symm)
  exact ⟨hfront, Commitment.toBytes_injective hc⟩

theorem append_u64_inj {front front' : List UInt8} {n n' : UInt64}
    (h : front ++ toLeBytes 8 n.toNat = front' ++ toLeBytes 8 n'.toNat) : front = front' ∧ n = n' := by
  obtain ⟨hfront, hn⟩ := List.append_inj' h
    ((Devnet.length_toLeBytes _ _).trans (Devnet.length_toLeBytes _ _).symm)
  exact ⟨hfront, UInt64.toNat_inj.mp (toLeBytes_inj_of_lt n.toNat_lt n'.toNat_lt hn)⟩

/-- The identifier behind a domain, once all that follows it is taken off. -/
theorem domain_append_inj {domain : List UInt8} {id id' : String}
    (h : domain ++ asBytes id = domain ++ asBytes id') : id = id' :=
  asBytes_injective (List.append_cancel_left h)

/-! ## Fields behind a tag

An optional field with its tag has two lengths, and the tag says which. -/

theorem toBytes_append_inj {rest rest' : List UInt8} {c c' : Commitment P}
    (h : c.toBytes ++ rest = c'.toBytes ++ rest') : c = c' ∧ rest = rest' := by
  obtain ⟨hc, hrest⟩ := List.append_inj h
    ((Commitment.length_toBytes c).trans (Commitment.length_toBytes c').symm)
  exact ⟨Commitment.toBytes_injective hc, hrest⟩

/-- The tag tells how long an optional field is. -/
theorem optionBytes_append_inj {rest rest' : List UInt8} {c c' : Option (Commitment P)}
    (h : optionBytes c ++ rest = optionBytes c' ++ rest') : c = c' ∧ rest = rest' := by
  cases c with
  | none =>
      cases c' with
      | none => exact ⟨rfl, List.append_cancel_left h⟩
      | some c' => cases (List.cons.inj h).1
  | some c =>
      cases c' with
      | none => cases (List.cons.inj h).1
      | some c' =>
          obtain ⟨hc, hrest⟩ := toBytes_append_inj (List.cons.inj h).2
          exact ⟨congrArg some hc, hrest⟩

/-! ## The five messages

In each of the five, at most one field has no fixed length. -/

theorem TransferNameOp.signingMessage_inj {name name' : String}
    {newOwnerPubkey newOwnerPubkey' newResolvesTo newResolvesTo' : Commitment P}
    (h : signingMessage name newOwnerPubkey newResolvesTo =
      signingMessage name' newOwnerPubkey' newResolvesTo') :
    name = name' ∧ newOwnerPubkey = newOwnerPubkey' ∧ newResolvesTo = newResolvesTo' := by
  obtain ⟨h, hresolves⟩ := append_toBytes_inj h
  obtain ⟨h, howner⟩ := append_toBytes_inj h
  exact ⟨domain_append_inj h, howner, hresolves⟩

theorem Listing.signingMessage_inj {assetId assetId' : String}
    {sellerPubkey sellerPubkey' : Commitment P} {price price' listedAt listedAt' : UInt64}
    (h : signingMessage assetId sellerPubkey price listedAt =
      signingMessage assetId' sellerPubkey' price' listedAt') :
    assetId = assetId' ∧ sellerPubkey = sellerPubkey' ∧ price = price' ∧ listedAt = listedAt' := by
  obtain ⟨h, hlisted⟩ := append_u64_inj h
  obtain ⟨h, hprice⟩ := append_u64_inj h
  obtain ⟨h, hseller⟩ := append_toBytes_inj h
  exact ⟨domain_append_inj h, hseller, hprice, hlisted⟩

theorem cancelSigningMessage_inj {assetId assetId' : String} {sellerPubkey sellerPubkey' : Commitment P}
    (h : cancelSigningMessage assetId sellerPubkey = cancelSigningMessage assetId' sellerPubkey') :
    assetId = assetId' ∧ sellerPubkey = sellerPubkey' := by
  obtain ⟨h, hseller⟩ := append_toBytes_inj h
  exact ⟨domain_append_inj h, hseller⟩

theorem stakeRegistrationMessage_inj {commitment commitment' : Commitment P} {value value' : UInt64}
    (h : stakeRegistrationMessage commitment value = stakeRegistrationMessage commitment' value') :
    commitment = commitment' ∧ value = value' := by
  obtain ⟨h, hvalue⟩ := append_u64_inj h
  exact ⟨(append_toBytes_inj h).2, hvalue⟩

/-- Read from the front, which needs the two asset ids to end at one place. -/
theorem TransferAssetOp.signingMessage_inj {assetId : String}
    {newOwnerPubkey newOwnerPubkey' : Commitment P}
    {requiredKernelExcess requiredKernelExcess' : Option (Commitment P)}
    {requiredRoyaltyKernelExcess requiredRoyaltyKernelExcess' : Option (Commitment P)}
    (h : signingMessage assetId newOwnerPubkey requiredKernelExcess requiredRoyaltyKernelExcess =
      signingMessage assetId newOwnerPubkey' requiredKernelExcess' requiredRoyaltyKernelExcess') :
    newOwnerPubkey = newOwnerPubkey' ∧ requiredKernelExcess = requiredKernelExcess' ∧
      requiredRoyaltyKernelExcess = requiredRoyaltyKernelExcess' := by
  simp only [signingMessage, List.append_assoc] at h
  obtain ⟨howner, h⟩ := toBytes_append_inj (List.append_cancel_left (List.append_cancel_left h))
  obtain ⟨hexcess, h⟩ := optionBytes_append_inj h
  exact ⟨howner, hexcess, MintTerms.optionBytes_injective h⟩

/-- **Transfers, listings and stakes are bound.** No two argument lists have one message; for the transfer
of an asset, no two with that asset id. -/
theorem signingMessages_injective :
    Function.Injective (fun t : String × Commitment P × Commitment P =>
        TransferNameOp.signingMessage t.1 t.2.1 t.2.2) ∧
      Function.Injective (fun t : String × Commitment P × UInt64 × UInt64 =>
        Listing.signingMessage t.1 t.2.1 t.2.2.1 t.2.2.2) ∧
      Function.Injective (fun t : String × Commitment P => cancelSigningMessage t.1 t.2) ∧
      Function.Injective (fun t : Commitment P × UInt64 => stakeRegistrationMessage t.1 t.2) ∧
      ∀ assetId, Function.Injective
        (fun t : Commitment P × Option (Commitment P) × Option (Commitment P) =>
          TransferAssetOp.signingMessage assetId t.1 t.2.1 t.2.2) := by
  refine ⟨?name, ?listing, ?cancel, ?stake, fun assetId => ?asset⟩
  -- each is injective in its own arguments, one after another
  case name =>
    rintro ⟨name, owner, resolves⟩ ⟨name', owner', resolves'⟩ h
    obtain ⟨rfl, rfl, rfl⟩ := TransferNameOp.signingMessage_inj h
    rfl
  case listing =>
    rintro ⟨assetId, seller, price, listedAt⟩ ⟨assetId', seller', price', listedAt'⟩ h
    obtain ⟨rfl, rfl, rfl, rfl⟩ := Listing.signingMessage_inj h
    rfl
  case cancel =>
    rintro ⟨assetId, seller⟩ ⟨assetId', seller'⟩ h
    obtain ⟨rfl, rfl⟩ := cancelSigningMessage_inj h
    rfl
  case stake =>
    rintro ⟨commitment, value⟩ ⟨commitment', value'⟩ h
    obtain ⟨rfl, rfl⟩ := stakeRegistrationMessage_inj h
    rfl
  case asset =>
    rintro ⟨owner, excess, royalty⟩ ⟨owner', excess', royalty'⟩ h
    obtain ⟨rfl, rfl, rfl⟩ := TransferAssetOp.signingMessage_inj h
    rfl

end Haze
