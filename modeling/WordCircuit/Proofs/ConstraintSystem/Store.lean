import WordCircuit.Proofs.ConstraintSystem.Solutions

namespace WordCircuit

namespace Combination

/-- The combination is well made, over some field and with variables of any number. -/
structure Proper (x : Combination) : Prop where
  over_field : ∃ q : Modulus, x.Over q
  nonneg : ∀ i ∈ x.vars, 0 ≤ i

theorem Over.eq_of_same {p q : Modulus} {x y : Combination} (hx : x.Over p) (hy : y.Over q)
    (hsame : y.order.same x.order = true) : q = p := by
  simpa [hx.order, hy.order, Order.same] using hsame

theorem Combines.proper {p : Modulus} {f : ZMod p.size → ZMod p.size → ZMod p.size}
    {x y z : Combination} (h : Combines p f x y z) (hx : x.Proper) (hy : y.Proper) : z.Proper :=
  ⟨⟨p, h.over_field⟩, fun i hi => (h.vars i hi).elim (hx.nonneg i) (hy.nonneg i)⟩

/-- Two combinations that pass the check of their orders are over one field. -/
theorem Proper.exists_over {x y : Combination} (hx : x.Proper) (hy : y.Proper)
    (hcheck : x.checkOrder y = .ok ()) : ∃ p : Modulus, x.Over p ∧ y.Over p := by
  obtain ⟨p, hp⟩ := hx.over_field
  obtain ⟨q, hq⟩ := hy.over_field
  have hsame : y.order.same x.order = true := by
    unfold checkOrder at hcheck
    split at hcheck
    · assumption
    · cases hcheck
  obtain rfl := hp.eq_of_same hq hsame
  exact ⟨q, hp, hq⟩

theorem Proper.add {x y z : Combination} (hx : x.Proper) (hy : y.Proper) (hadd : x.add y = .ok z) :
    z.Proper := by
  obtain ⟨⟨⟩, hcheck, -⟩ := bind_eq_ok_iff.mp hadd
  obtain ⟨p, hxp, hyp⟩ := hx.exists_over hy hcheck
  obtain ⟨sum, hsum, hcombines⟩ := exists_add hxp hyp
  obtain rfl := Except.ok.inj (hsum.symm.trans hadd)
  exact hcombines.proper hx hy

theorem Proper.sub {x y z : Combination} (hx : x.Proper) (hy : y.Proper) (hsub : x.sub y = .ok z) :
    z.Proper := by
  obtain ⟨⟨⟩, hcheck, -⟩ := bind_eq_ok_iff.mp hsub
  obtain ⟨p, hxp, hyp⟩ := hx.exists_over hy hcheck
  obtain ⟨difference, hdifference, hcombines⟩ := exists_sub hxp hyp
  obtain rfl := Except.ok.inj (hdifference.symm.trans hsub)
  exact hcombines.proper hx hy

theorem Proper.scale {x z : Combination} (hx : x.Proper) {n : Int} (hscale : x.scale (.int n) = .ok z) :
    z.Proper := by
  obtain ⟨p, hp⟩ := hx.over_field
  obtain ⟨multiple, hmultiple, hcombines⟩ := exists_scale_int hp n
  obtain rfl := Except.ok.inj (hmultiple.symm.trans hscale)
  exact hcombines.proper hx hx

theorem proper_ofElement {p : Modulus} {e : Element} (he : e.Over p) : (ofElement e).Proper :=
  ⟨⟨p, over_ofElement he⟩, fun _ hi => absurd hi List.not_mem_nil⟩

theorem proper_var (p : Modulus) (index : Nat) : (var (.exact p) index).Proper := by
  refine ⟨⟨p, over_var p index⟩, fun i hi => ?_⟩
  rw [vars_var, List.mem_singleton] at hi
  omega

end Combination

/-- The three parts of the constraint are well made, each by itself. -/
structure ProductConstraint.Proper (c : ProductConstraint) : Prop where
  left : c.left.Proper
  right : c.right.Proper
  result : c.result.Proper

namespace ConstraintSystem

/-- What passes the check of a constraint is one between handles of the system. -/
theorem declares_of_check {s : ConstraintSystem} {c : ProductConstraint} (hc : c.Proper)
    (hcheck : s.check c = .ok ()) :
    s.Declares c.left ∧ s.Declares c.right ∧ s.Declares c.result := by
  obtain ⟨⟨⟩, hleft, h⟩ := bind_eq_ok_iff.mp hcheck
  obtain ⟨⟨⟩, hright, h⟩ := bind_eq_ok_iff.mp h
  obtain ⟨⟨⟩, hresult, h⟩ := bind_eq_ok_iff.mp h
  have hdim : c.dim ≤ s.numVars := by
    by_contra hlt
    rw [if_pos (not_le.mp hlt)] at h
    cases h
  have hpart {x : Combination} (hx : x.Proper) (hfield : s.checkField x = .ok ())
      (hle : x.dim ≤ s.numVars) : s.Declares x := by
    obtain ⟨q, hq⟩ := hx.over_field
    have hsame : x.order.same s.order = true := by
      unfold checkField at hfield
      split at hfield
      · assumption
      · cases hfield
    obtain rfl : q = s.modulus := by simpa [hq.order, order, Order.same] using hsame
    exact declares_of_dim_le hq hx.nonneg hle
  rw [ProductConstraint.dim] at hdim
  exact ⟨hpart hc.left hleft (by omega), hpart hc.right hright (by omega),
    hpart hc.result hresult (by omega)⟩

/-- One system results from another by declaring variables and by posing constraints
    between what are handles at that time. -/
inductive Evolves (s : ConstraintSystem) : ConstraintSystem → Prop where
  | refl : Evolves s s
  | next {t : ConstraintSystem} (h : Evolves s t) : Evolves s t.next
  | push {t : ConstraintSystem} {c : ProductConstraint} (h : Evolves s t)
      (hleft : t.Declares c.left) (hright : t.Declares c.right) (hresult : t.Declares c.result) :
      Evolves s (t.push c)

namespace Evolves

variable {s t u : ConstraintSystem}

theorem trans (hst : s.Evolves t) (htu : t.Evolves u) : s.Evolves u := by
  induction htu with
  | refl => exact hst
  | next _ ih => exact ih.next
  | push _ hleft hright hresult ih => exact ih.push hleft hright hresult

theorem precedes (h : s.Evolves t) : s.Precedes t := by
  induction h with
  | refl => exact s.precedes_refl
  | next _ ih => exact ih.trans (precedes_next _)
  | push _ _ _ _ ih => exact ih.trans (precedes_push _ _)

theorem wellFormed (h : s.Evolves t) (hwell : s.WellFormed) : t.WellFormed := by
  induction h with
  | refl => exact hwell
  | next _ ih => exact ih.next
  | push _ hleft hright hresult ih => exact ih.push hleft hright hresult

/-- Constraints stay at their positions. -/
theorem constraints_prefix (h : s.Evolves t) : s.constraints.toList <+: t.constraints.toList := by
  induction h with
  | refl => exact List.prefix_rfl
  | next _ ih => exact ih
  | push _ _ _ _ ih =>
    rw [push_constraints, Array.toList_push]
    exact ih.trans (List.prefix_append _ _)

end Evolves

/-- Whatever comes of the action, the system that it leaves behind has evolved from that
    at which it started, and what it gives is as `Q` says. -/
def Evolving {α : Type} (act : Action ConstraintSystem α) (Q : α → Prop) : Prop :=
  ∀ s, s.Evolves (act.exec s).2 ∧ ∀ a, (act.exec s).1 = .ok a → Q a

namespace Evolving

variable {α β : Type} {act : Action ConstraintSystem α} {P : α → Prop} {Q : β → Prop}

theorem pure {a : α} (ha : P a) : Evolving (Pure.pure a) P :=
  fun _ => ⟨.refl, fun _ h => Except.ok.inj h ▸ ha⟩

theorem bind {next : α → Action ConstraintSystem β} (hact : Evolving act P)
    (hnext : ∀ a, P a → Evolving (next a) Q) : Evolving (act >>= next) Q := by
  intro s
  obtain ⟨hevolves, hresult⟩ := hact s
  rw [Action.exec_bind]
  cases hexec : act.exec s with
  | mk outcome t =>
    rw [hexec] at hevolves hresult
    cases outcome with
    | ok a =>
      obtain ⟨hlater, hlast⟩ := hnext a (hresult a rfl) t
      exact ⟨hevolves.trans hlater, hlast⟩
    | error fault => exact ⟨hevolves, fun _ h => nomatch h⟩

theorem lift {x : Except Fault α} (hx : ∀ a, x = .ok a → P a) :
    Evolving (liftM x : Action ConstraintSystem α) P :=
  fun _ => ⟨.refl, hx⟩

/-- A check that is made first leaves everything to what comes after it. -/
theorem after_check {γ : Type} {x : Except Fault γ} {next : γ → Action ConstraintSystem β}
    (hnext : ∀ c, Evolving (next c) Q) :
    Evolving ((liftM x : Action ConstraintSystem γ) >>= next) Q :=
  (lift (P := fun _ => True) fun _ _ => trivial).bind fun c _ => hnext c

theorem get : Evolving (MonadState.get : Action ConstraintSystem ConstraintSystem) fun _ => True :=
  fun _ => ⟨.refl, fun _ _ => trivial⟩

theorem map {f : α → β} (hact : Evolving act P) (hf : ∀ a, P a → Q (f a)) :
    Evolving (f <$> act) Q := by
  rw [map_eq_pure_bind]
  exact hact.bind fun a ha => .pure (hf a ha)

theorem mapM {ι : Type} {f : ι → Action ConstraintSystem α} (hf : ∀ item, Evolving (f item) P)
    (items : List ι) : Evolving (items.mapM f) fun out => ∀ a ∈ out, P a := by
  induction items with
  | nil => exact .pure fun _ ha => absurd ha List.not_mem_nil
  | cons item items ih =>
    rw [List.mapM_cons]
    refine (hf item).bind fun a ha => ih.bind fun out hout => .pure ?_
    exact List.forall_mem_cons.mpr ⟨ha, hout⟩

end Evolving

theorem exec_declare (s : ConstraintSystem) : declare.exec s = (.ok s.numVars, s.next) :=
  rfl

theorem evolving_declare : Evolving declare fun _ => True :=
  fun _ => ⟨.next .refl, fun _ _ => trivial⟩

theorem evolving_fresh : Evolving fresh Combination.Proper := by
  intro s
  rw [exec_fresh]
  exact ⟨.next .refl, fun a ha => Except.ok.inj ha ▸ Combination.proper_var s.modulus s.numVars⟩

theorem evolving_one : Evolving one Combination.Proper :=
  fun s => ⟨.refl, fun _ ha => Except.ok.inj ha ▸
    Combination.proper_ofElement (Element.one_exact s.modulus ▸ Element.over_ofClass _ _)⟩

theorem proper_zero (s : ConstraintSystem) : (Combination.zero s.order).Proper :=
  Combination.proper_ofElement (Element.zero_exact s.modulus ▸ Element.over_ofClass _ _)

theorem evolving_satisfy {c : ProductConstraint} (hc : c.Proper) : Evolving (satisfy c) fun _ => True := by
  intro s
  rw [satisfy, Action.exec_bind_of_ok (Action.exec_get s)]
  cases hcheck : s.check c with
  | ok =>
    obtain ⟨hleft, hright, hresult⟩ := declares_of_check hc hcheck
    exact ⟨.push .refl hleft hright hresult, fun _ _ => trivial⟩
  | error fault =>
    -- The check comes before the constraint is appended, so nothing has happened yet.
    exact ⟨.refl, fun _ _ => trivial⟩

theorem evolving_allocBool : Evolving allocBool Combination.Proper :=
  evolving_fresh.bind fun _ hv => (evolving_satisfy ⟨hv, hv, hv⟩).bind fun _ _ => .pure hv

theorem evolving_compact {x : Combination} (hx : x.Proper) : Evolving (compact x) Combination.Proper := by
  refine Evolving.get.bind fun s _ => ?_
  split
  · exact .pure hx
  · refine evolving_fresh.bind fun v hv => evolving_one.bind fun one hone => ?_
    exact (evolving_satisfy ⟨hx, hone, hv⟩).bind fun _ _ => .pure hv

section Operations

variable (table : Table) (ty : ValueType) {x y : Combination}

theorem evolving_constant (value : Datum) : Evolving (constant table ty value) Combination.Proper := by
  refine .after_check fun _ => .after_check fun canonical => ?_
  intro s
  refine ⟨.refl, fun a ha => Except.ok.inj ha ▸ ?_⟩
  exact Combination.proper_ofElement (Element.ofNumber_int s.modulus _ ▸ Element.over_ofClass _ _)

theorem evolving_and (hx : x.Proper) (hy : y.Proper) : Evolving (and table ty x y) Combination.Proper := by
  refine .after_check fun _ => Evolving.get.bind fun s _ => ?_
  refine .after_check fun _ => .after_check fun _ => ?_
  refine evolving_fresh.bind fun v hv => ?_
  exact (evolving_satisfy ⟨hx, hy, hv⟩).bind fun _ _ => .pure hv

theorem evolving_xor (hx : x.Proper) (hy : y.Proper) : Evolving (xor table ty x y) Combination.Proper := by
  refine .after_check fun _ => Evolving.get.bind fun s _ => ?_
  refine .after_check fun _ => .after_check fun _ => ?_
  split
  · refine (Evolving.lift fun _ => hx.add hy).bind fun sum hsum => ?_
    exact evolving_compact hsum
  · refine (evolving_and table ty hx hy).bind fun both hboth => ?_
    refine (Evolving.lift fun _ => hx.add hy).bind fun sum hsum => ?_
    refine (Evolving.lift fun _ => hboth.scale).bind fun twice htwice => ?_
    refine (Evolving.lift fun _ => hsum.sub htwice).bind fun difference hdifference => ?_
    exact evolving_compact hdifference

theorem evolving_not (hx : x.Proper) : Evolving (not table ty x) Combination.Proper := by
  refine .after_check fun _ => Evolving.get.bind fun s _ => ?_
  refine .after_check fun _ => evolving_one.bind fun one hone => ?_
  exact .lift fun _ => hone.sub hx

theorem evolving_or (hx : x.Proper) (hy : y.Proper) :
    Evolving ((backend table).or ty x y) Combination.Proper := by
  refine .after_check fun _ => ?_
  refine (evolving_not table ty hx).bind fun notX hnotX => ?_
  refine (evolving_not table ty hy).bind fun notY hnotY => ?_
  refine (evolving_and table ty hnotX hnotY).bind fun neither hneither => ?_
  exact evolving_not table ty hneither

theorem evolving_assertTrue (hx : x.Proper) : Evolving (assertTrue table x) fun _ => True := by
  refine .after_check fun _ => evolving_one.bind fun one hone => ?_
  exact evolving_one.bind fun one' hone' => evolving_satisfy ⟨hx, hone, hone'⟩

theorem evolving_assertEq (hx : x.Proper) (hy : y.Proper) :
    Evolving (assertEq table ty x y) fun _ => True := by
  refine .after_check fun _ => ?_
  refine (Evolving.lift fun _ => hx.sub hy).bind fun difference hdifference => ?_
  refine evolving_one.bind fun one hone => Evolving.get.bind fun s _ => ?_
  exact evolving_satisfy ⟨hdifference, hone, proper_zero s⟩

theorem proper_weightedSum {order : Order} {bits : List Combination} {total : Combination}
    (hzero : (Combination.zero order).Proper) (hbits : ∀ bit ∈ bits, bit.Proper)
    (hsum : weightedSum order bits = .ok total) : total.Proper := by
  have hentries : ∀ entry ∈ bits.zipIdx, entry.1.Proper := fun entry hmem =>
    hbits entry.1 (List.fst_mem_of_mem_zipIdx hmem)
  unfold weightedSum at hsum
  generalize bits.zipIdx = entries at hentries hsum
  generalize Combination.zero order = running at hzero hsum
  induction entries generalizing running with
  | nil => exact Except.ok.inj hsum ▸ hzero
  | cons entry rest ih =>
    rw [List.forall_mem_cons] at hentries
    rw [List.foldlM_cons] at hsum
    obtain ⟨next, hnext, hrest⟩ := bind_eq_ok_iff.mp hsum
    obtain ⟨weighted, hweighted, hadd⟩ := bind_eq_ok_iff.mp hnext
    exact ih hentries.2 next (hzero.add (hentries.1.scale hweighted) hadd) hrest

theorem evolving_decomposeByte (hx : x.Proper) :
    Evolving (decomposeByte table x) fun bits => ∀ bit ∈ bits, bit.Proper := by
  refine .after_check fun _ => ?_
  refine (Evolving.mapM (fun _ => evolving_allocBool) _).bind fun bits hbits => ?_
  refine Evolving.get.bind fun s _ => ?_
  refine (Evolving.lift fun _ => proper_weightedSum (proper_zero s) hbits).bind fun total htotal => ?_
  refine evolving_one.bind fun one hone => ?_
  exact (evolving_satisfy ⟨htotal, hone, hx⟩).bind fun _ _ => .pure hbits

end Operations

end ConstraintSystem

end WordCircuit
