import UdjatNetwork.Support.Bytes

/-! # Records with their length in the header

Byte strings that hold records one behind the other, each with its own length in its header and padded to
a multiple of four bytes. `walk` goes from record to record as long as the header and the length that it
reads lie in what is left; over a string of well-formed records it meets exactly the ones that lie in the
part it may read (`walk_records`). -/

namespace UdjatNetwork.Records

/-- The next multiple of four. -/
def align (n : Nat) : Nat := (n + 3) / 4 * 4

theorem le_align (n : Nat) : n ≤ align n := by
  unfold align
  omega

/-- Where a kind of records has its length. -/
structure Layout where
  header : Nat
  size : List UInt8 → Nat
  header_pos : 0 < header
  size_take : ∀ bs, size (bs.take header) = size bs

namespace Layout
variable (L : Layout)

/-- There is a record in the first `len` of the bytes. -/
def Ok (bs : List UInt8) (len : Nat) : Prop := L.header ≤ len ∧ L.header ≤ L.size bs ∧ L.size bs ≤ len

instance (bs : List UInt8) (len : Nat) : Decidable (L.Ok bs len) :=
  inferInstanceAs (Decidable (_ ∧ _ ∧ _))

/-- The records met in the first `len` of the bytes: the bytes from each on, and how many may be read. -/
def walk (bs : List UInt8) (len : Nat) : List (List UInt8 × Nat) :=
  if L.Ok bs len then (bs, len) :: walk (bs.drop (align (L.size bs))) (len - align (L.size bs)) else []
termination_by len
decreasing_by
  rename_i h
  have := le_align (L.size bs)
  have := L.header_pos
  simp only [Ok] at h
  omega

theorem walk_of_ok {bs : List UInt8} {len : Nat} (h : L.Ok bs len) :
    L.walk bs len = (bs, len) :: L.walk (bs.drop (align (L.size bs))) (len - align (L.size bs)) := by
  rw [walk, if_pos h]

theorem walk_of_not_ok {bs : List UInt8} {len : Nat} (h : ¬ L.Ok bs len) : L.walk bs len = [] := by
  rw [walk, if_neg h]

/-- A record: its bytes, with their number in the header. -/
structure Record where
  bytes : List UInt8
  header_le : L.header ≤ bytes.length
  size_eq : L.size bytes = bytes.length

variable {L}

/-- The bytes of the record, and the padding. -/
def Record.padded (r : L.Record) : List UInt8 :=
  r.bytes ++ List.replicate (align r.bytes.length - r.bytes.length) 0

@[simp] theorem Record.length_padded (r : L.Record) : r.padded.length = align r.bytes.length := by
  have := le_align r.bytes.length
  simp [Record.padded]
  omega

theorem Record.size_append (r : L.Record) (bs : List UInt8) : L.size (r.bytes ++ bs) = r.bytes.length := by
  rw [← L.size_take, List.take_append_of_le_length r.header_le, L.size_take, r.size_eq]

/-! ### Lists of records -/

variable {α : Type} (record : α → L.Record)

/-- One record behind the other. -/
def concat (as : List α) : List UInt8 := as.flatMap fun a => (record a).padded

theorem concat_cons (a : α) (as : List α) : concat record (a :: as) = (record a).padded ++ concat record as := rfl

/-- What has its record in the first `len` bytes, each with the number of bytes from it on. -/
def within : Nat → List α → List (α × Nat)
  | _, [] => []
  | len, a :: as =>
    if (record a).bytes.length ≤ len then (a, len) :: within (len - align (record a).bytes.length) as else []

/-- Each with the number of bytes from it on. -/
def whole : List α → List (α × Nat)
  | [] => []
  | a :: as => (a, (concat record (a :: as)).length) :: whole as

/-- The walk meets a record: it stands at its first byte, with as many to read. -/
def Meets (v : List UInt8 × Nat) (a : α × Nat) : Prop := (record a.1).bytes <+: v.1 ∧ v.2 = a.2

variable {record}

/-- A walk over records meets those that lie in what it may read. -/
theorem walk_records (bs : List UInt8) (len : Nat) (as : List α) (hlen : len ≤ (concat record as).length)
    (hbs : bs.take len = (concat record as).take len) :
    List.Forall₂ (Meets record) (L.walk bs len) (within record len as) := by
  induction as generalizing bs len with
  | nil =>
    have h0 : len = 0 := Nat.le_zero.mp hlen
    have hno : ¬ L.Ok bs len := fun hok => by
      have := L.header_pos
      have := hok.1
      omega
    rw [walk_of_not_ok L hno]
    exact .nil
  | cons a as ih =>
    rw [concat_cons] at hlen hbs
    rw [within]
    set r := record a with hr
    split_ifs with hfit
    · have hprefix : r.bytes <+: bs := by
        have h : r.bytes <+: (r.padded ++ concat record as).take len := by
          rw [List.prefix_take_iff]
          exact ⟨⟨_, by rw [Record.padded, List.append_assoc]⟩, hfit⟩
        rw [← hbs] at h
        exact h.trans (List.take_prefix len bs)
      obtain ⟨rest, rfl⟩ := hprefix
      have hsize := r.size_append rest
      have hok : L.Ok (r.bytes ++ rest) len := by
        have := r.header_le
        refine ⟨?_, ?_, ?_⟩ <;> omega
      rw [walk_of_ok L hok, hsize]
      refine .cons ⟨List.prefix_append _ _, rfl⟩ (ih _ _ ?_ ?_)
      · rw [List.length_append, r.length_padded] at hlen
        omega
      · rw [← List.drop_take, hbs, List.drop_take, ← r.length_padded, List.drop_left]
    · -- The header that the walk reads, if there is room for one, is the one of the record.
      have hno : ¬ L.Ok bs len := by
        rintro ⟨hheader, -, hsize⟩
        have hsame : L.size bs = r.bytes.length := by
          calc L.size bs = L.size ((bs.take len).take L.header) := by
                rw [List.take_take, Nat.min_eq_left hheader, L.size_take]
            _ = L.size (r.bytes ++ _) := by
                rw [hbs, List.take_take, Nat.min_eq_left hheader, L.size_take, Record.padded, List.append_assoc]
            _ = r.bytes.length := r.size_append _
        omega
      rw [walk_of_not_ok L hno]
      exact .nil

theorem within_concat (as : List α) : within record (concat record as).length as = whole record as := by
  induction as with
  | nil => rfl
  | cons a as ih =>
    have hle := le_align (record a).bytes.length
    have hlen : (concat record (a :: as)).length = align (record a).bytes.length + (concat record as).length := by
      rw [concat_cons, List.length_append, (record a).length_padded]
    rw [within, if_pos (by omega), whole, hlen, Nat.add_sub_cancel_left, ih]

theorem length_concat_perm {as bs : List α} (h : as.Perm bs) : (concat record as).length = (concat record bs).length :=
  (h.flatMap_right _).length_eq

theorem whole_le {as : List α} {p : α × Nat} (h : p ∈ whole record as) : p.2 ≤ (concat record as).length := by
  induction as with
  | nil => cases h
  | cons a as ih =>
    rcases List.mem_cons.mp h with rfl | h
    · exact Nat.le_refl _
    · rw [concat_cons, List.length_append]
      exact (ih h).trans (Nat.le_add_left _ _)

theorem filterMap_whole {β : Type} (f : α → Option β) (as : List α) :
    (whole record as).filterMap (fun p => f p.1) = as.filterMap f := by
  induction as with
  | nil => rfl
  | cons a as ih => rw [whole, List.filterMap_cons, List.filterMap_cons, ih]

/-- A loop over what the walk meets is one over the records, when its body reads them right. -/
theorem foldlM_meets {m : Type → Type} [Monad m] {β : Type} {f : β → List UInt8 × Nat → m β} {g : β → α × Nat → m β}
    (hfg : ∀ s v a, Meets record v a → f s v = g s a) {vs : List (List UInt8 × Nat)} {as : List (α × Nat)}
    (h : List.Forall₂ (Meets record) vs as) (s : β) : vs.foldlM f s = as.foldlM g s := by
  induction h generalizing s with
  | nil => rfl
  | cons hva _ ih =>
    rw [List.foldlM_cons, List.foldlM_cons, hfg s _ _ hva]
    exact congrArg _ (funext ih)

end Layout

/-- A loop returns with `E` when its body keeps `E` at every member of the list. -/
theorem foldlM_ok_iff {ε σ α : Type} {f : σ → α → Except ε σ} {E : σ → Prop} {N : α → Prop}
    (hf : ∀ s a, (∃ t, f s a = .ok t ∧ E t) ↔ E s ∧ N a) (as : List α) (s : σ) :
    (∃ t, as.foldlM f s = .ok t ∧ E t) ↔ E s ∧ ∀ a ∈ as, N a := by
  induction as generalizing s with
  | nil =>
    constructor
    · rintro ⟨t, ht, he⟩
      cases ht
      exact ⟨he, fun a ha => by cases ha⟩
    · rintro ⟨he, -⟩
      exact ⟨s, rfl, he⟩
  | cons a as ih =>
    rw [List.foldlM_cons, List.forall_mem_cons, ← and_assoc, ← hf]
    cases f s a with
    | error e =>
      refine iff_of_false (fun ⟨t, ht, _⟩ => ?_) fun ⟨⟨t, ht, _⟩, _⟩ => ?_
      · cases ht
      · cases ht
    | ok u =>
      change (∃ t, as.foldlM f u = .ok t ∧ E t) ↔ _
      rw [ih]
      exact and_congr_left' ⟨fun he => ⟨u, rfl, he⟩, fun ⟨_, hu, he⟩ => Except.ok.inj hu ▸ he⟩

end UdjatNetwork.Records
