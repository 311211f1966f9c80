import ThresholdKeygen.Proofs.Ceremony.Plain
import ThresholdKeygen.Proofs.Ceremony.SingleSlots

/-!
# Ceremonies with as many key slots as participants

A weighted ceremony with as many key slots as parties is in step with a plain one up to the shares
that are dealt: the same participants are created, and they hear and deal the same.
-/

namespace ThresholdKeygen

open Ceremony

variable {K : Type} [Suite K] {σ : Type} {config : Config} {s : Sharing}

/-- The configuration with as many key slots as participants. -/
def Config.slotted (config : Config) : Config := { config with keys := some config.participants }

/-- That two ceremonies go side by side, of which one has participants in a state of an honest run,
and the other has a single slot for each of them, which is open. -/
structure Paired (config : Config) (s : Sharing)
    (P : Sharing → Int → Int → Participant K → Prop) (c : Ceremony (Participant K))
    (d : Ceremony (WeightedParty K)) : Prop where
  sized : config.slotted.Sized
  dealers_eq : s.dealers = config.participants
  collected : Plain.Collected s config.participants (fun _ _ => False) c.inboxes
  abreast : c.Abreast config config.slotted (fun x p w =>
    P s config.participants x p ∧ Mirrors config.participants Open x p w) d

/-! ### Creation -/

theorem createFrom_map {M N : Type} (f : M → N) (create : Int → ExceptT Error (StateM σ) M)
    (count : Nat) (next : Int) : createFrom (fun x => f <$> create x) count next =
      List.map f <$> createFrom create count next := by
  induction count generalizing next with
  | zero => simp [createFrom]
  | succ count ih => simp only [createFrom, ih, bind_map_left, map_bind, map_pure, List.map_cons]

/-- Where members are created, what the first one tells is true. -/
theorem delivers_createFrom_first {M : Type} {create : Int → ExceptT Error (StateM σ) M}
    {count : Nat} {next : Int} {Q : Prop} (hcount : 0 < count)
    (h : Delivers (create next) fun _ => Q) :
    Delivers (createFrom create count next) fun _ => Q := by
  obtain ⟨count, rfl⟩ := Nat.exists_eq_add_of_lt hcount
  rw [Nat.zero_add, createFrom]
  exact .bind (h.mono fun _ hQ => .any fun _ => hQ)

section Start

variable [RandomSource σ]

/-- Creates the participants of a plain ceremony. -/
def Plain.createMembers (config : Config) : ExceptT Error (StateM σ) (List (Participant K)) :=
  createFrom (fun x => Participant.create config.participants config.threshold x none
    config.label.toItem) config.participants.toNat 1

/-- A party without keys around a participant. -/
def WeightedParty.around (parties : Int) (core : Participant K) : WeightedParty K :=
  ⟨parties, core, .empty, .empty, .empty, .empty⟩

omit [Suite K] in
theorem WeightedParty.create_eq {parties : Int} {core : Participant K}
    (h : core.dealers = parties) : create parties core = .ok (around parties core) :=
  if_neg (not_not.2 h)

/-- A party is created around a participant like that of a plain ceremony. -/
theorem createParty_slotted (config : Config) (x : Int) :
    (Weighted.createParty config.slotted x : ExceptT Error (StateM σ) (WeightedParty K)) =
      WeightedParty.around config.participants <$> Participant.create config.participants
        config.threshold x none config.label.toItem := by
  refine ExceptT.ext (StateT.ext fun source => ?_)
  have hcreate := Participant.delivers_create (K := K) config.participants config.threshold x none
    config.label.toItem source
  rw [Weighted.createParty, ExceptT.run_bind, StateT.run_bind, ExceptT.run_map, StateT.run_map]
  change (Participant.create (K := K) config.participants config.threshold x none
    config.label.toItem).run.run source >>= _ = _
  generalize (Participant.create (K := K) config.participants config.threshold x none
    config.label.toItem).run.run source = created at hcreate ⊢
  obtain ⟨created, rest⟩ := created
  cases created with
  | error refusal => rfl
  | ok core =>
    have hdealers : core.dealers = config.slotted.participants := by
      obtain ⟨t, polynomial, -, -, -, -, -, rfl⟩ := hcreate core rfl
      rfl
    change (liftM (WeightedParty.create config.slotted.participants core) :
      ExceptT Error (StateM σ) _).run.run rest = _
    rw [WeightedParty.create_eq hdealers]
    rfl

theorem createParties_slotted (config : Config) :
    (createFrom (Weighted.createParty config.slotted) config.slotted.participants.toNat 1 :
      ExceptT Error (StateM σ) (List (WeightedParty K))) =
        List.map (WeightedParty.around config.participants) <$> Plain.createMembers config := by
  rw [Plain.createMembers, ← createFrom_map]
  exact congrArg (fun create => createFrom create config.participants.toNat 1)
    (funext (createParty_slotted config))

/-- Where participants can be created, parameters are in range. -/
theorem Plain.delivers_createMembers (hplain : config.keys = none)
    (hparticipants : 1 ≤ config.participants) :
    Delivers (createMembers config : ExceptT Error (StateM σ) (List (Participant K))) fun _ =>
      config.Sized ∧ config.slotted.Sized := by
  refine delivers_createFrom_first (by omega) ((Participant.delivers_create _ _ _ _ _).mono ?_)
  rintro _ ⟨t, -, ht, ht₁, ht₂, hslots, -⟩
  have hn := Config.shareIndices_of_none hplain
  have hthreshold : 1 ≤ config.threshold ∧ config.threshold ≤ config.participants := by omega
  exact ⟨⟨hparticipants, hn.ge, hthreshold.1, hn ▸ hthreshold.2, hn ▸ hslots⟩,
    ⟨hparticipants, le_rfl, hthreshold.1, hthreshold.2, hslots⟩⟩

/-- A party that has just been given its key mirrors the participant that it wraps. -/
theorem Mirrors.of_enrolled {x : Int} {p : Participant K} {w : WeightedParty K}
    (hx : x ∈ upTo config.participants) (hp : p.Enrolled s config.participants x)
    (hdealers : s.dealers = config.participants) (hcore : w.core = p)
    (hshares : w.signingShares = .empty) (hw : Weighted.Opened config.slotted x w) :
    Mirrors config.participants Open x p w where
  core_eq := by
    rw [hcore, Participant.bare, Participant.holding, ← hp.sharesIn_eq, ← hp.signingShare_eq]
  position_eq := hp.position_eq
  n_eq := hp.n_eq
  dealers_eq := hp.collects.dealers_eq.trans hdealers
  position_mem := hx
  members_eq := by
    refine List.perm_singleton.1 ((List.perm_ext_iff_of_nodup w.keys.nodup_members
      (List.nodup_singleton x)).2 fun key => ?_)
    obtain ⟨h₁, h₂⟩ := mem_upTo.1 hx
    rw [List.mem_singleton]
    exact (hw.mem_keys key).trans (KeyPartition.owns_iff_eq (Int.le_trans h₁ h₂) h₁)
  parties_eq := hw.parties_eq
  signingShare_eq := by rw [hshares, hp.signingShare_eq]; rfl
  holdings := hw.stage_le

omit [Suite K] in
theorem assignRange_slotted (hsized : config.slotted.Sized) {members : List (Participant K)}
    (hlength : (members.length : Int) = config.participants)
    (hmembers : ∀ (place : Nat) p, members[place]? = some p →
      p.position = place + 1 ∧ p.n = config.participants) :
    ∃ parties, (members.map (WeightedParty.around config.participants)).mapM (Weighted.assignRange
        (KeyPartition.ranges (.ofList ((upTo config.participants).map fun i =>
          (i, KeyPartition.rangeSize config.participants config.participants i))))) = .ok parties ∧
      parties.length = members.length ∧ ∀ (place : Nat) w, parties[place]? = some w →
        members[place]? = some w.core ∧ w.signingShares = .empty ∧
          Weighted.Opened config.slotted (place + 1) w := by
  rw [← List.length_map (f := WeightedParty.around (K := K) config.participants)]
  refine exists_mapM_eq_ok fun place w hw => ?_
  rw [List.getElem?_map, Option.map_eq_some_iff] at hw
  obtain ⟨p, hp, rfl⟩ := hw
  obtain ⟨hposition, hn⟩ := hmembers place p hp
  obtain ⟨hplace, -⟩ := List.getElem?_eq_some_iff.1 hp
  have hx : (place : Int) + 1 ∈ upTo config.participants := mem_upTo.2 ⟨by omega, by omega⟩
  obtain ⟨w, hassign, rfl, hshares, hopened⟩ := Weighted.assignRange_eq hsized hx
    (KeyPartition.ranges_get? hsized.one_le_participants hx) hposition hn
  exact ⟨w, hassign, hp, hshares, hopened⟩

section Outcomes

variable {source source' : σ} {refusal : Error}

theorem Plain.start_of_createMembers (hplain : config.keys = none) :
    (start config : ExceptT Error (StateM σ) (Ceremony (Participant K))) =
      createMembers config >>= fun members => return ⟨config, members,
        .ofList ((upTo config.participants).map (·, .empty)), []⟩ := by
  rw [start, if_neg (by simp [Config.weighted, hplain])]
  rfl

theorem Plain.start_eq (hplain : config.keys = none) {members : List (Participant K)}
    (hmembers : (createMembers config).run.run source = (.ok members, source')) :
    (start config).run.run source = ((.ok ⟨config, members,
      .ofList ((upTo config.participants).map (·, .empty)), []⟩ :
        Except Error (Ceremony (Participant K))), source') := by
  rw [start_of_createMembers hplain, ExceptT.run_bind, StateT.run_bind, hmembers]
  rfl

theorem Plain.start_refused (hplain : config.keys = none)
    (hmembers : (createMembers (K := K) config).run.run source = (.error refusal, source')) :
    (start config).run.run source =
      ((.error refusal : Except Error (Ceremony (Participant K))), source') := by
  rw [start_of_createMembers hplain, ExceptT.run_bind, StateT.run_bind, hmembers]
  rfl

theorem Weighted.start_refused (hweighted : config.weighted = true)
    (hparties : (createFrom (createParty (K := K) config) config.participants.toNat 1).run.run
      source = (.error refusal, source')) :
    (start config).run.run source =
      ((.error refusal : Except Error (Ceremony (WeightedParty K))), source') := by
  rw [start, hweighted]
  change (createFrom (createParty config) config.participants.toNat 1 >>= _ :
    ExceptT Error (StateM σ) (Ceremony (WeightedParty K))).run.run source = _
  rw [ExceptT.run_bind, StateT.run_bind, hparties]
  rfl

end Outcomes

/-- Both ceremonies start with the same participants. -/
theorem inStep_start {S T : Type} {u : S} {v : T} (hplain : config.keys = none)
    (hparticipants : 1 ≤ config.participants) :
    (Run.besides (Plain.start config) : Run σ S (Ceremony (Participant K))).InStep u
      (Run.besides (Weighted.start config.slotted)) v
      (fun c _ d _ => ∃ s, Paired config s (fun s n x p => p.Enrolled s n x) c d)
      fun refusal _ refusal' _ => refusal = refusal' := by
  intro source
  change Alike _ _ (((Plain.start config).run.run source).1, u)
    (((Weighted.start config.slotted).run.run source).1, v) ∧
      ((Plain.start config).run.run source).2 = ((Weighted.start config.slotted).run.run source).2
  have hsized := Plain.delivers_createMembers (K := K) (σ := σ) hplain hparticipants source
  have hparties : (createFrom (Weighted.createParty (K := K) config.slotted)
      config.slotted.participants.toNat 1).run.run source = _ :=
    congrArg (fun created => created.run.run source) (createParties_slotted (K := K) config)
  rw [ExceptT.run_map, StateT.run_map] at hparties
  generalize hmembers : (Plain.createMembers (K := K) config).run.run source = created
    at hsized hparties
  obtain ⟨created, source'⟩ := created
  cases created with
  | error refusal =>
    rw [Plain.start_refused hplain hmembers, Weighted.start_refused rfl hparties]
    exact ⟨.error rfl, rfl⟩
  | ok members =>
    obtain ⟨hsized, hslotted⟩ := hsized members rfl
    have hstart := Plain.start_eq hplain hmembers
    obtain ⟨c, hc, s, hs, hseats, hcollected⟩ := Plain.succeeds_start (K := K) hsized hplain source
    rw [hstart] at hc
    obtain rfl := Except.ok.inj hc
    obtain ⟨parties, hassign, hlength, hseated⟩ := assignRange_slotted hslotted hseats.length_eq
      fun place p hp => ⟨(hseats.seated place p hp).position_eq, (hseats.seated place p hp).n_eq⟩
    have howners : (⟨config.slotted, parties, .empty, []⟩ : Ceremony (WeightedParty K)).Seats
        config.slotted .empty (Weighted.Owner config.slotted) :=
      ⟨rfl, rfl, by rw [hlength]; exact hseats.length_eq,
        fun place w hw => (hseated place w hw).2.2.toOwner⟩
    rw [hstart, Weighted.start_eq rfl hparties (KeyPartition.counts_eq hparticipants le_rfl) hassign
      (Weighted.validateParties_eq hslotted howners)]
    refine ⟨.ok ⟨s, hslotted, hs.dealers_eq, hcollected, rfl, rfl, rfl, hseats.length_eq, hlength,
      fun place p w hp hw => ?_⟩, rfl⟩
    obtain ⟨hcore, hshares, hopened⟩ := hseated place w hw
    have hp := hseats.seated place p hp
    exact ⟨hp, .of_enrolled (hseats.mem_upTo ‹_›) hp hs.dealers_eq
      (Option.some.inj (hcore.symm.trans ‹_›)) hshares hopened⟩

end Start

/-! ### Commitments and proofs -/

section Exchange

variable {n : Int} {Φ : Holdings} {c : Ceremony (Participant K)} {d : Ceremony (WeightedParty K)}

omit [Suite K] in
/-- Operations that are blind to shares, on the members at a place. -/
theorem inStep_onCore {α : Type} {config' : Config} (h : c.Abreast config config' (Mirrors n Φ) d)
    (place : Nat) {operation : Participant K → Answer (Participant K) α}
    (hoperation : Participant.Blind operation) :
    (onMember place fun p : Participant K => onCore p operation :
      Plain.Action σ K (Option α)).InStep c
      (onMember place fun w : WeightedParty K => onCore w operation) d
      (fun _ c' _ d' => c'.Abreast config config' (Mirrors n Φ) d') fun _ _ _ _ => True :=
  inStep_onMember h (fun _ _ _ _ hothers => hothers) fun _ _ _ hmirrors =>
    hmirrors.onCore hoperation

theorem inStep_deliverCommitment {config' : Config}
    (h : c.Abreast config config' (Mirrors n Φ) d) (sender receiver : Nat) :
    (deliverCommitment sender receiver : Plain.Action σ K Unit).InStep c
      (deliverCommitment sender receiver) d
      (fun _ c' _ d' => c'.Abreast config config' (Mirrors n Φ) d') fun _ _ _ _ => True := by
  refine .bind (.get ?_)
  rcases h.cases_place sender with ⟨hnone, hnone'⟩ | ⟨p, w, hp, hw, hmirrors⟩
  · rw [hnone, hnone']
    exact .pure h
  · have hcore : Member.core w = p.bare := hmirrors.core_eq
    rw [hp, hw]
    dsimp only
    rw [hcore]
    refine .bind (.steady ?_)
    change Alike _ _ (p.commitment, c) (p.commitment, d)
    cases p.commitment with
    | error refusal => exact .error trivial
    | ok commitment =>
      exact .ok (.bind ((inStep_onCore h receiver (Participant.blind_receiveCommitment
        p.position commitment)).mono (fun _ _ _ _ hleft => .pure hleft) fun _ _ _ _ _ => trivial))

/-- Everybody hears the same from everybody else. -/
theorem inStep_exchangeCommitments {config' : Config}
    (h : c.Abreast config config' (Mirrors n Φ) d) :
    (exchangeCommitments : Plain.Action σ K Unit).InStep c exchangeCommitments d
      (fun _ c' _ d' => c'.Abreast config config' (Mirrors n Φ) d') fun _ _ _ _ => True := by
  refine .bind (.get ?_)
  rw [h.length'_eq]
  refine .forM (I := fun _ c d => Abreast config config' (Mirrors n Φ) c d) h
    fun _ sender _ c₁ d₁ _ h₁ => ?_
  refine .forM (I := fun _ c d => Abreast config config' (Mirrors n Φ) c d) h₁
    fun _ receiver _ c₂ d₂ _ h₂ => ?_
  split
  · exact .pure h₂
  · exact inStep_deliverCommitment h₂ sender receiver

variable [RandomSource σ]

theorem collectProofs_eq {members : List (Participant K)} {parties : List (WeightedParty K)}
    (hcores : parties.map Member.core = members.map Participant.bare) (label : Option (Item K)) :
    (collectProofs label parties : ExceptT Error (StateM σ) (List (Int × KnowledgeProof K))) =
      collectProofs label members := by
  let prove (p : Participant K) : ExceptT Error (StateM σ) (Int × KnowledgeProof K) := do
    return (p.position, ← p.prove label)
  change parties.mapM (prove ∘ Member.core) = members.mapM (prove ∘ Participant.bare)
  rw [← List.mapM_map, ← List.mapM_map, hcores]

/-- Both make the same proofs, and the same proofs pass. -/
theorem inStep_verifyProofs {config' : Config} {R : Int → Participant K → WeightedParty K → Prop}
    (hlabel : config'.label = config.label) (hR : ∀ x p w, R x p w → Mirrors n Φ x p w)
    (h : c.Abreast config config' R d) :
    (verifyProofs : Plain.Action σ K Unit).InStep c verifyProofs d
      (fun _ c' _ d' => c'.Abreast config config' R d') fun _ _ _ _ => True := by
  have hcores := Mirrors.cores_eq (h.forall₂.imp fun _ _ ⟨x, hx⟩ => ⟨x, hR x _ _ hx⟩)
  refine .bind (.get ?_)
  rw [h.config_eq, h.config'_eq, hlabel]
  dsimp only
  rw [collectProofs_eq hcores]
  refine .bind (.besides (fun proofs => ?_) fun _ => trivial)
  refine (inStep_inspection _ (fun x p w hpair => ?_) h).mono (fun _ _ _ _ hleft => hleft)
    fun _ _ _ _ _ => trivial
  have hcore : Member.core w = p.bare := (hR x p w hpair).core_eq
  rw [hcore]
  exact .rfl

/-- Proofs leave alone what is collected for delivery. -/
theorem inboxes_verifyProofs {M : Type} [Member M K] (c : Ceremony M) :
    (verifyProofs : Run σ (Ceremony M) Unit).Ends c fun _ c' => c'.inboxes = c.inboxes := by
  refine .bind (.get (.bind (.besides fun source => ?_)))
  generalize ((collectProofs c.config.label.toItem? c.members).run.run source).1 = answer
  cases answer with
  | error refusal => rfl
  | ok proofs => exact (round_ends _ _ c).mono fun _ _ ⟨_, _, _, _, hinboxes⟩ => hinboxes

end Exchange

/-! ### Hand-over -/

namespace Ceremony

variable {M γ : Type} (f : M → γ)

/-- A ceremony without what is collected for delivery, and with a part of each member. -/
def outline (c : Ceremony M) : Config × List String × List γ :=
  (c.config, c.rounds, c.members.map f)

/-- Members that show the same are at the same place. -/
theorem exists_of_map_eq {f : M → γ} {members members' : List M}
    (h : members'.map f = members.map f) {place : Nat} {member' : M}
    (hmember' : members'[place]? = some member') :
    ∃ member, members[place]? = some member ∧ f member' = f member := by
  have hplace := congrArg (·[place]?) h
  simp only [List.getElem?_map, hmember', Option.map_some] at hplace
  obtain ⟨member, hmember, hsame⟩ := Option.map_eq_some_iff.1 hplace.symm
  exact ⟨member, hmember, hsame.symm⟩

theorem keeps_onMember_outline {α : Type} {place : Nat} {operation : M → Answer M α}
    (h : ∀ member, f (operation member).2 = f member) :
    (onMember place operation : Run σ (Ceremony M) (Option α)).Keeps (outline f) := by
  refine keeps_onMember fun c member hmember => ?_
  obtain ⟨hplace, rfl⟩ := List.getElem?_eq_some_iff.1 hmember
  have hplace' : place < (c.members.map f).length := by rwa [List.length_map]
  have hsame : (c.members.map f).set place (f c.members[place]) = c.members.map f := by
    rw [← List.getElem_map f (h := hplace'), List.set_getElem_self]
  rw [outline, List.map_set, h, hsame]
  rfl

end Ceremony

section HandOver

omit [Suite K]

/-- What a participant has apart from the shares that it has received. -/
def Participant.apart (p : Participant K) : Participant K × Option Scalar :=
  (p.bare, p.signingShare)

/-- What a party has apart from what its slots have received. -/
def WeightedParty.apart (w : WeightedParty K) : WeightedParty K :=
  { w with
    inboxes := .empty
    slotStages := .empty }

theorem Participant.apart_receiveShares (p : Participant K) (delivery : Delivery) :
    (p.receiveShares delivery).2.apart = p.apart := by
  rw [receiveShares]
  split
  · rfl
  · obtain ⟨inbox, hinbox⟩ := p.exists_storeShares delivery.entries
    rw [hinbox]
    rfl

theorem WeightedParty.apart_storeShares (w : WeightedParty K) (key : Int) (delivery : Delivery) :
    (w.storeShares key delivery).2.apart = w.apart := by
  refine attempt_cases (Q := fun w' : WeightedParty K => w'.apart = w.apart) rfl
    (.bind fun _ _ => .bind fun _ _ => .bind fun stage _ => ?_)
  dsimp only
  split
  · exact .error
  · split
    · exact .error
    · refine .bind fun slot _ => .bind fun w' hadvance => .pure ?_
      obtain ⟨slotStages, rfl⟩ := of_advanceSlot_eq_ok hadvance
      rfl

theorem Plain.keeps_collectShare (sender receiver : Participant K) :
    (collectShare sender receiver : Action σ K Unit).Keeps (outline Participant.apart) :=
  .bind (.steady _) fun _ => .modify fun _ => rfl

theorem Plain.keeps_deliverInbox (place : Nat) :
    (deliverInbox place : Action σ K Unit).Keeps (outline Participant.apart) :=
  .bind .get fun _ => .bind (keeps_onMember_outline _ fun p => p.apart_receiveShares _) fun _ =>
    .pure _

theorem Plain.keeps_handOver (members : List (Participant K)) :
    (do
      members.forM fun sender => members.forM fun receiver => collectShare sender receiver
      (List.range members.length).forM deliverInbox : Action σ K Unit).Keeps
        (outline Participant.apart) :=
  .bind (.forM (fun sender => .forM (keeps_collectShare sender) members) members) fun _ =>
    .forM keeps_deliverInbox _

theorem Weighted.keeps_deliverSlot (place : Nat) (key : Int) :
    (deliverSlot place key : Action σ K Unit).Keeps (outline WeightedParty.apart) :=
  .bind .get fun _ => .bind (.steady _) fun _ =>
    .bind (keeps_onMember_outline _ fun w => w.apart_storeShares _ _) fun _ => .pure _

theorem Weighted.keeps_deliverKeys (parties : List (WeightedParty K × Nat)) :
    (parties.forM fun entry => entry.1.keys.sorted.forM (deliverSlot entry.2) :
      Action σ K Unit).Keeps (outline WeightedParty.apart) :=
  .forM (fun entry => .forM (keeps_deliverSlot entry.2) entry.1.keys.sorted) parties

/-- Members of whom the same is left apart from shares received. -/
theorem Mirrors.of_apart {n x : Int} {Φ Ψ : Holdings} {p p' : Participant K}
    {w w' : WeightedParty K} (h : Mirrors n Φ x p w) (hp : p'.apart = p.apart)
    (hw : w'.apart = w.apart)
    (hholdings : Ψ x p'.sharesIn p'.signingShare w'.inboxes w'.slotStages) :
    Mirrors n Ψ x p' w' := by
  obtain ⟨hbare, hshare⟩ := Prod.mk.inj hp
  exact
    { core_eq := (congrArg WeightedParty.core hw).trans (h.core_eq.trans hbare.symm)
      position_eq := (congrArg Participant.position hbare).trans h.position_eq
      n_eq := (congrArg Participant.n hbare).trans h.n_eq
      dealers_eq := (congrArg Participant.dealers hbare).trans h.dealers_eq
      position_mem := h.position_mem
      members_eq := (congrArg (fun w => w.keys.members) hw).trans h.members_eq
      parties_eq := (congrArg WeightedParty.parties hw).trans h.parties_eq
      signingShare_eq := by
        rw [hshare, ← h.signingShare_eq]
        exact congrArg (fun w => w.signingShares.get? x) hw
      holdings := hholdings }

end HandOver

theorem Participant.Dealt.bare {n x : Int} {p : Participant K} (h : p.Dealt s n x) :
    p.bare.Dealt s n x :=
  { h with
    consistent := { h.consistent with signingShare_eq := by rintro _ ⟨⟩ }
    sharesIn_eq := rfl }

/-- A party with an open slot around a participant that has dealt is ready to receive. -/
theorem Mirrors.receiving {x : Int} {p : Participant K} {w : WeightedParty K}
    (h : Mirrors config.participants Open x p w) (hp : p.Dealt s config.participants x) :
    Weighted.Receiving config.slotted s (fun _ _ => False) x w where
  parties_eq := h.parties_eq
  mem_keys key := by
    obtain ⟨h₁, h₂⟩ := mem_upTo.1 h.position_mem
    exact h.mem_keys.trans (KeyPartition.owns_iff_eq (Int.le_trans h₁ h₂) h₁).symm
  stage_le := h.holdings
  dealt := h.core_eq ▸ hp.bare
  filled _ := False.elim

section Distribution

variable {c : Ceremony (Participant K)} {d : Ceremony (WeightedParty K)}

/-- The same shares are handed over. -/
theorem inStep_handOver (h : Paired config s (fun s n x p => p.Dealt s n x) c d) :
    (do
      c.members.forM fun sender => c.members.forM fun receiver =>
        Plain.collectShare sender receiver
      (List.range c.members.length).forM Plain.deliverInbox : Plain.Action σ K Unit).InStep c
      (d.members.zipIdx.forM fun entry =>
        entry.1.keys.sorted.forM (Weighted.deliverSlot entry.2)) d
      (fun _ c' _ d' => c'.Abreast config config.slotted (fun x p w =>
        p.Supplied s config.participants x ∧ Mirrors config.participants Open x p w) d')
      fun _ _ _ _ => False := by
  refine .of_reaches (Plain.reaches_handOver rfl h.dealers_eq h.collected
    (h.abreast.seats fun _ _ _ hpair => hpair.1)) (Plain.keeps_handOver c.members)
    (Weighted.reaches_deliverKeys h.sized h.dealers_eq (h.abreast.seats' rfl fun _ _ _ hpair =>
      hpair.2.receiving hpair.1)) (Weighted.keeps_deliverKeys d.members.zipIdx) ?_
  rintro _ c' _ d' ⟨inboxes, hsupplied⟩ hkept hreceived hkept'
  obtain ⟨-, hkept⟩ := Prod.mk.inj hkept
  obtain ⟨hrounds, hmembers⟩ := Prod.mk.inj hkept
  obtain ⟨-, hkept'⟩ := Prod.mk.inj hkept'
  obtain ⟨hrounds', hmembers'⟩ := Prod.mk.inj hkept'
  refine ⟨hsupplied.config_eq, hreceived.config_eq, ?_, hsupplied.length_eq, ?_, ?_⟩
  · rw [hrounds, hrounds', h.abreast.rounds_eq]
  · exact Int.ofNat.inj (hreceived.length_eq.trans hsupplied.length_eq.symm)
  · intro place p' w' hp' hw'
    obtain ⟨p, hp, hapart⟩ := exists_of_map_eq hmembers hp'
    obtain ⟨w, hw, hapart'⟩ := exists_of_map_eq hmembers' hw'
    obtain ⟨-, hmirrors⟩ := h.abreast.beside place p w hp hw
    exact ⟨hsupplied.seated place p' hp',
      hmirrors.of_apart hapart hapart' (hreceived.seated place w' hw').stage_le⟩

/-- Everybody hears from all dealers. -/
theorem Paired.exchangeCommitments [LawfulSuite K]
    (h : Paired config s (fun s n x p => p.Enrolled s n x) c d) :
    (Ceremony.exchangeCommitments : Plain.Action σ K Unit).InStep c Ceremony.exchangeCommitments d
      (fun _ c' _ d' => Paired config s (fun s n x p => p.Ready s n x) c' d')
      fun _ _ _ _ => False := by
  have hreaches := reaches_exchangeCommitments (σ := σ) (Φ := fun _ _ => True)
    (fun _ _ _ _ => trivial) h.dealers_eq (h.abreast.seats fun _ _ _ hpair => ⟨hpair.1, trivial⟩)
  refine ((inStep_exchangeCommitments (h.abreast.mono fun _ _ _ _ hpair => hpair.2)).reached
    hreaches).mono ?_ fun _ _ _ _ hfalse => hfalse
  rintro _ c' _ d' ⟨habreast, hready⟩
  exact { h with
    collected := hready.inboxes_eq ▸ h.collected
    abreast := habreast.mono fun place p w hp hmirrors =>
      ⟨(hready.seated place p hp).1, hmirrors⟩ }

theorem Paired.verifyProofs [RandomSource σ] {P : Sharing → Int → Int → Participant K → Prop}
    (h : Paired config s P c d) :
    (Ceremony.verifyProofs : Plain.Action σ K Unit).InStep c Ceremony.verifyProofs d
      (fun _ c' _ d' => Paired config s P c' d') fun _ _ _ _ => True := by
  have hlabel : config.slotted.label = config.label := rfl
  refine ((inStep_verifyProofs hlabel (fun _ _ _ hpair => hpair.2) h.abreast).ended
    (inboxes_verifyProofs c)).mono ?_ fun _ _ _ _ _ => trivial
  rintro _ c' _ d' ⟨habreast, hinboxes⟩
  exact { h with
    collected := hinboxes ▸ h.collected
    abreast := habreast }

/-- Everybody deals the same, and has received it afterwards. -/
theorem Paired.distributeShares [RandomSource σ]
    (h : Paired config s (fun s n x p => p.Ready s n x) c d) :
    (Plain.distributeShares : Plain.Action σ K Unit).InStep c Weighted.distributeShares d
      (fun _ c' _ d' => c'.Abreast config config.slotted (fun x p w =>
        p.Supplied s config.participants x ∧ Mirrors config.participants Open x p w) d')
      fun _ _ _ _ => False := by
  have hdeal : ∀ x (p : Participant K) (w : WeightedParty K),
      p.Ready s config.participants x ∧ Mirrors config.participants Open x p w →
        Alike (fun _ p' _ w' => p'.Dealt s config.participants x ∧
            Mirrors config.participants Open x p' w') (fun _ _ _ _ => False)
          p.dealShares (onCore w Participant.dealShares) := by
    rintro x p w ⟨hready, hmirrors⟩
    obtain ⟨p', hdeal, hdealt⟩ := hready.dealShares_eq
    obtain ⟨w', hdeal', hmirrors'⟩ := hmirrors.exists_onCore Participant.blind_dealShares hdeal
    rw [hdeal, hdeal']
    exact .ok ⟨hdealt, hmirrors'⟩
  refine .bind (((inStep_steadyRound _ hdeal h.abreast).ended (round_ends _ _ c)).mono ?_
    fun _ _ _ _ hrefused => hrefused.1.elim)
  rintro _ c₁ _ d₁ ⟨habreast, _, -, -, -, hinboxes⟩
  exact .bind (.get (inStep_handOver { h with
    collected := hinboxes ▸ h.collected
    abreast := habreast }))

end Distribution

end ThresholdKeygen
