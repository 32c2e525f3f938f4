import Mathlib.Data.List.Nodup
import StatePrep.Stored.Document

/-! # Writing and reading that fit together

`Faithful` says of one kind of values what it takes to keep them as documents. A value that can be
kept is read back, and whatever is read can be kept. Then the form in which a value is written is
the canonical one of all documents that it is read from (`faithful_of`).

A structure may be spelled in many ways. Its parts are found in the list of them, and in a record of
them in any order, with any other fields among them (`parts?_of_perm`). -/

namespace StatePrep

/-- Writing and reading values of one kind as documents fit together. -/
structure Faithful {α β : Type} (Storable : β → Prop) (write : β → Document α)
    (read : Document α → Option β) : Prop where
  /-- A value that can be kept is read from what is written of it. -/
  read_write : ∀ v, Storable v → read (write v) = some v
  /-- Whatever is read can be kept. -/
  storable : ∀ d v, read d = some v → Storable v
  /-- However a document is spelled, what is written of the value that it is read as is read as this
  value too, and then written in the same form. -/
  canonical : ∀ d v, read d = some v →
    read (write v) = some v ∧ (read (write v)).map write = some (write v)

section Faithful

variable {α β : Type} {Storable : β → Prop} {write : β → Document α}
  {read : Document α → Option β}

theorem faithful_of (hread : ∀ v, Storable v → read (write v) = some v)
    (hstorable : ∀ d v, read d = some v → Storable v) : Faithful Storable write read where
  read_write := hread
  storable := hstorable
  canonical d v h := by
    rw [hread v (hstorable d v h)]
    exact ⟨rfl, rfl⟩

end Faithful

namespace Document

variable {α : Type}

/-! ### The parts of a structure -/

theorem field?_eq_some_iff {fields : List (String × Document α)} {name : String}
    {d : Document α} :
    field? fields name = some d ↔ (fields.filter fun f => f.1 == name) = [(name, d)] := by
  unfold field?
  constructor
  · intro h
    split at h
    · next f hf =>
      have hmem : f ∈ fields.filter fun g => g.1 == name := hf ▸ List.mem_singleton_self f
      obtain ⟨n, content⟩ := f
      obtain rfl : n = name := beq_iff_eq.mp (List.mem_filter.mp hmem).2
      obtain rfl := Option.some.inj h
      exact hf
    · cases h
  · intro h
    rw [h]

theorem filter_zip_of_mem {names : List String} (hnodup : names.Nodup) {parts : List (Document α)}
    {name : String} {d : Document α} (h : (name, d) ∈ names.zip parts) :
    ((names.zip parts).filter fun f => f.1 == name) = [(name, d)] := by
  induction names generalizing parts with
  | nil => cases h
  | cons n names ih =>
    obtain ⟨hn, hnodup⟩ := List.nodup_cons.mp hnodup
    cases parts with
    | nil => cases h
    | cons part parts =>
      rw [List.zip_cons_cons] at h ⊢
      rcases List.mem_cons.mp h with heq | h
      · cases heq
        have hrest : ((names.zip parts).filter fun f => f.1 == name) = [] := by
          refine List.filter_eq_nil_iff.mpr fun f hf hname => hn ?_
          obtain ⟨hmem, -⟩ := List.of_mem_zip hf
          rwa [beq_iff_eq.mp hname] at hmem
        rw [List.filter_cons_of_pos (by simp), hrest]
      · have hne : n ≠ name := fun heq => hn (heq ▸ (List.of_mem_zip h).1)
        rw [List.filter_cons_of_neg (by simpa using hne)]
        exact ih hnodup h

theorem mapM_field? {fields : List (String × Document α)} {names : List String}
    {parts : List (Document α)} (hlen : parts.length = names.length)
    (h : ∀ f ∈ names.zip parts, field? fields f.1 = some f.2) :
    names.mapM (field? fields) = some parts := by
  induction names generalizing parts with
  | nil => rw [List.length_eq_zero_iff.mp hlen]; rfl
  | cons n names ih =>
    cases parts with
    | nil => cases hlen
    | cons part parts =>
      have hfirst : field? fields n = some part := h (n, part) List.mem_cons_self
      have hrest := ih (Nat.succ.inj hlen) fun f hf => h f (List.mem_cons_of_mem _ hf)
      rw [List.mapM_cons, hfirst, hrest]
      rfl

/-- **The parts of a structure** are found in the list of them, and in a record of them in any
order, among other fields. -/
theorem parts?_of_perm {names : List String} (hnodup : names.Nodup) {parts : List (Document α)}
    (hlen : parts.length = names.length) :
    parts? names (.list parts) = some parts ∧
      ∀ fields others : List (String × Document α), (∀ f ∈ others, f.1 ∉ names) →
        fields.Perm (names.zip parts ++ others) → parts? names (.record fields) = some parts := by
  refine ⟨if_pos hlen, fun fields others hothers hperm => mapM_field? hlen fun f hf => ?_⟩
  have hnone : (others.filter fun g => g.1 == f.1) = [] := by
    refine List.filter_eq_nil_iff.mpr fun g hg hname => hothers g hg ?_
    rw [beq_iff_eq.mp hname]
    exact (List.of_mem_zip hf).1
  have hfilter := hperm.filter fun g => g.1 == f.1
  rw [List.filter_append, filter_zip_of_mem hnodup hf, hnone, List.append_nil] at hfilter
  exact field?_eq_some_iff.mpr (List.perm_singleton.mp hfilter)

/-! ### Numbers and lists -/

theorem faithful_natBelow (bound : ℕ) :
    Faithful (fun n => n < bound) ofCount (natBelow? bound : Document α → Option ℕ) := by
  refine faithful_of (fun n h => ?_) fun d n h => ?_
  · rw [ofCount, natBelow?, if_pos ⟨Int.natCast_nonneg n, Int.ofNat_lt.mpr h⟩, Int.toNat_natCast]
  · unfold natBelow? at h
    split at h
    · split at h
      · next hbound =>
        obtain rfl := Option.some.inj h
        omega
      · cases h
    · cases h

theorem faithful_count :
    Faithful (fun n => n < UInt64.size) ofCount (count? : Document α → Option ℕ) :=
  faithful_natBelow UInt64.size

theorem faithful_bool :
    Faithful (fun _ => True) bool (bool? : Document α → Option Bool) :=
  faithful_of (fun _ _ => rfl) fun _ _ _ => trivial

theorem faithful_listOf {β : Type} {Storable : β → Prop} {write : β → Document α}
    {read : Document α → Option β} (h : Faithful Storable write read) :
    Faithful (fun vs => ∀ v ∈ vs, Storable v) (fun vs => .list (vs.map write)) (listOf? read) := by
  refine faithful_of (fun vs hvs => ?_) fun d vs hread => ?_
  · rw [listOf?]
    induction vs with
    | nil => rfl
    | cons v vs ih =>
      have hrest := ih fun u hu => hvs u (List.mem_cons_of_mem _ hu)
      rw [List.map_cons, List.mapM_cons, h.read_write v (hvs v List.mem_cons_self), hrest]
      rfl
  · cases d with
    | list items =>
      rw [listOf?] at hread
      induction items generalizing vs with
      | nil => cases hread; exact fun v hv => nomatch hv
      | cons d items ih =>
        rw [List.mapM_cons] at hread
        obtain ⟨first, hfirst, hread⟩ := Option.bind_eq_some_iff.mp hread
        obtain ⟨others, hothers, hread⟩ := Option.bind_eq_some_iff.mp hread
        cases hread
        exact List.forall_mem_cons.mpr ⟨h.storable d first hfirst, ih others hothers⟩
    | null | bool | integer | number | text | record => cases hread

variable [Scalar α]

theorem faithful_scalar :
    Faithful (fun x : α => Scalar.isFinite x = true) ofScalar scalar? := by
  refine faithful_of (fun x h => ?_) fun d x h => ?_
  · rw [ofScalar, if_pos h, scalar?, if_pos h]
  · unfold scalar? at h
    split at h
    · split at h
      · next hfinite =>
        obtain rfl := Option.some.inj h
        exact hfinite
      · cases h
    · split at h
      · next hfinite =>
        obtain rfl := Option.some.inj h
        exact hfinite
      · cases h
    · cases h

end Document

/-- Both parts of the amplitude are finite. -/
def Amplitude.IsFinite {α : Type} [Scalar α] (a : Amplitude α) : Prop :=
  Scalar.isFinite a.re = true ∧ Scalar.isFinite a.im = true

theorem Amplitude.faithful {α : Type} [Scalar α] :
    Faithful (IsFinite (α := α)) Amplitude.toDocument Amplitude.ofDocument? := by
  refine faithful_of (fun a h => ?_) fun d a h => ?_
  · rw [toDocument, ofDocument?, Document.faithful_scalar.read_write _ h.1,
      Document.faithful_scalar.read_write _ h.2]
    rfl
  · unfold ofDocument? at h
    split at h
    · obtain ⟨re, hre, h⟩ := Option.bind_eq_some_iff.mp h
      obtain ⟨im, him, h⟩ := Option.bind_eq_some_iff.mp h
      cases h
      exact ⟨Document.faithful_scalar.storable _ _ hre, Document.faithful_scalar.storable _ _ him⟩
    · cases h

end StatePrep
