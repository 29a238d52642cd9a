import Abacus.Proofs.Evaluation.Climb

/-! # Syntax trees

An alternation of operand places and operators denotes one tree. Multiplication
and division bind tighter than addition and subtraction, and operators that
bind equally tightly associate to the left. A tree is evaluated in post-order.
-/

namespace Abacus.Evaluation

theorem eq_divisionByZero_of_apply {op : Operator} {a b : Number} {f : Fault}
    (h : apply op a b = .error f) : f = .divisionByZero := by
  unfold apply at h
  split at h
  · cases h
  · cases h
    rfl

/-- A place holds a token, or nothing where the tokens end too early. -/
inductive Tree where
  | leaf (place : Option Token)
  | node (op : Operator) (left right : Tree)

namespace Tree

variable {t : Tree} {op : Operator} {p : Option Token}

def first : Tree → Option Token
  | leaf p => p
  | node _ l _ => l.first

/-- The operators from left to right, each with the place to its right. -/
def operations : Tree → List (Operator × Option Token)
  | leaf _ => []
  | node op l r => l.operations ++ (op, r.first) :: r.operations

def places (t : Tree) : List (Option Token) :=
  t.first :: t.operations.map Prod.snd

def Tight (least : Nat) : Tree → Prop
  | leaf _ => True
  | node op _ _ => least ≤ op.precedence

/-- What stands to the right of an operator binds tighter than it, and to the left no looser. -/
def Binds : Tree → Prop
  | leaf _ => True
  | node op l r => l.Binds ∧ r.Binds ∧ l.Tight op.precedence ∧ r.Tight (op.precedence + 1)

/-- Puts an operator and the place to its right at the right end. -/
def attach (op : Operator) (p : Option Token) : Tree → Tree
  | leaf q => node op (leaf q) (leaf p)
  | node op' l r =>
    if op'.precedence < op.precedence then node op' l (r.attach op p)
    else node op (node op' l r) (leaf p)

def attachAll (t : Tree) (ps : List (Operator × Option Token)) : Tree :=
  ps.foldl (fun t p => t.attach p.1 p.2) t

@[simp] theorem attachAll_nil : t.attachAll [] = t := rfl

@[simp] theorem attachAll_cons {x : Operator × Option Token}
    {ps : List (Operator × Option Token)} :
    t.attachAll (x :: ps) = (t.attach x.1 x.2).attachAll ps := rfl

@[simp] theorem attachAll_append {ps qs : List (Operator × Option Token)} :
    t.attachAll (ps ++ qs) = (t.attachAll ps).attachAll qs :=
  List.foldl_append

@[simp] theorem first_attach : (t.attach op p).first = t.first := by
  fun_induction attach op p t with
  | case1 => rfl
  | case2 _ l r _ ih => rfl
  | case3 => rfl

@[simp] theorem operations_attach : (t.attach op p).operations = t.operations ++ [(op, p)] := by
  fun_induction attach op p t with
  | case1 => rfl
  | case2 op' l r h ih => simp [operations, ih]
  | case3 => simp [operations, first]

theorem tight_attach {least : Nat} (ht : t.Tight least) (hop : least ≤ op.precedence) :
    (t.attach op p).Tight least := by
  fun_induction attach op p t with
  | case1 => exact hop
  | case2 => exact ht
  | case3 => exact hop

theorem attach_of_tight (h : t.Tight op.precedence) : t.attach op p = node op t (leaf p) := by
  cases t with
  | leaf => rfl
  | node op' l r => simp only [attach, Nat.not_lt.mpr h, if_false]

theorem binds_attach (h : t.Binds) : (t.attach op p).Binds := by
  fun_induction attach op p t with
  | case1 => exact ⟨trivial, trivial, trivial, trivial⟩
  | case2 op' l r hlt ih =>
    obtain ⟨hl, hr, hlt', hrt⟩ := h
    exact ⟨hl, ih hr, hlt', tight_attach hrt hlt⟩
  | case3 op' l r hle => exact ⟨h, trivial, Nat.not_lt.mp hle, trivial⟩

theorem attachAll_node {l r : Tree} {ps : List (Operator × Option Token)}
    (h : ∀ x ∈ ps, op.precedence < x.1.precedence) :
    (node op l r).attachAll ps = node op l (r.attachAll ps) := by
  induction ps generalizing r with
  | nil => rfl
  | cons x ps ih =>
    obtain ⟨hx, hps⟩ := List.forall_mem_cons.mp h
    simp only [attachAll_cons, attach, hx, if_true]
    exact ih hps

def ofOperations (p : Option Token) (ps : List (Operator × Option Token)) : Tree :=
  (leaf p).attachAll ps

theorem first_attachAll (ps : List (Operator × Option Token)) :
    (t.attachAll ps).first = t.first := by
  induction ps generalizing t with
  | nil => rfl
  | cons x ps ih => rw [attachAll_cons, ih, first_attach]

theorem operations_attachAll (ps : List (Operator × Option Token)) :
    (t.attachAll ps).operations = t.operations ++ ps := by
  induction ps generalizing t with
  | nil => simp
  | cons x ps ih => rw [attachAll_cons, ih, operations_attach, List.append_assoc]; rfl

theorem binds_attachAll (h : t.Binds) (ps : List (Operator × Option Token)) :
    (t.attachAll ps).Binds := by
  induction ps generalizing t with
  | nil => exact h
  | cons x ps ih => exact ih (binds_attach h)

theorem places_ofOperations (ps : List (Operator × Option Token)) :
    (ofOperations p ps).places = p :: ps.map Prod.snd := by
  simp only [places, ofOperations, first_attachAll, operations_attachAll, first, operations,
    List.nil_append]

theorem precedence_of_mem_operations {least : Nat} (hb : t.Binds) (ht : t.Tight least)
    {x : Operator × Option Token} (hx : x ∈ t.operations) : least ≤ x.1.precedence := by
  induction t generalizing least with
  | leaf => cases hx
  | node op l r ihl ihr =>
    obtain ⟨hl, hr, hlt, hrt⟩ := hb
    have ht : least ≤ op.precedence := ht
    rcases List.mem_append.mp hx with hx | hx
    · exact Nat.le_trans ht (ihl hl hlt hx)
    · rcases List.mem_cons.mp hx with rfl | hx
      · exact ht
      · exact Nat.le_trans ht (Nat.le_of_succ_le (ihr hr hrt hx))

theorem ofOperations_first_operations (h : t.Binds) : ofOperations t.first t.operations = t := by
  induction t with
  | leaf => rfl
  | node op l r ihl ihr =>
    obtain ⟨hl, hr, hlt, hrt⟩ := h
    have hleft : (leaf l.first).attachAll l.operations = l := ihl hl
    have hright : (leaf r.first).attachAll r.operations = r := ihr hr
    simp only [ofOperations, first, operations, attachAll_append, attachAll_cons]
    rw [hleft, attach_of_tight hlt,
      attachAll_node fun x hx => precedence_of_mem_operations hr hrt hx, hright]

/-- The precedences leave exactly one tree. -/
theorem ofOperations_eq_iff {ps : List (Operator × Option Token)} :
    ofOperations p ps = t ↔ t.Binds ∧ t.first = p ∧ t.operations = ps := by
  constructor
  · rintro rfl
    exact ⟨binds_attachAll (t := leaf p) trivial ps, first_attachAll ps, operations_attachAll ps⟩
  · rintro ⟨h, rfl, rfl⟩
    exact ofOperations_first_operations h

/-- Left side, right side, then the operator; the first fault is the outcome. -/
def value (place : Option Token → Except Fault Number) : Tree → Except Fault Number
  | leaf p => place p
  | node op l r => do
    let left ← l.value place
    let right ← r.value place
    apply op left right

variable {place : Option Token → Except Fault Number}

theorem value_attachAll_node {l r : Tree} (hplace : ∀ n, place (some (.value n)) = .ok n)
    (ps : List (Operator × Option Token)) :
    ((node op l r).attachAll ps).value place = (do
      let left ← l.value place
      ((node op (leaf (some (.value left))) r).attachAll ps).value place) := by
  have hnode (op : Operator) (r : Tree) (left : Number) :
      (node op (leaf (some (.value left))) r).value place = (do
        let right ← r.value place
        apply op left right) := by
    simp only [value, hplace]
    rfl
  induction ps generalizing op l r with
  | nil => simp only [attachAll_nil, hnode]; rfl
  | cons x ps ih =>
    simp only [attachAll_cons, attach]
    split
    · exact ih
    · rw [ih]
      simp only [ih (l := node op (leaf _) r), hnode]
      simp only [value, bind_assoc]

theorem value_attachAll_of_tight (hplace : ∀ n, place (some (.value n)) = .ok n)
    {ps : List (Operator × Option Token)} (h : ∀ x ∈ ps.head?, t.Tight x.1.precedence) :
    (t.attachAll ps).value place = (do
      let left ← t.value place
      (ofOperations (some (.value left)) ps).value place) := by
  cases ps with
  | nil =>
    simp only [attachAll_nil, ofOperations, value, hplace]
    exact (bind_pure _).symm
  | cons x ps =>
    rw [attachAll_cons, attach_of_tight (h x rfl), value_attachAll_node hplace]
    rfl

theorem value_ofOperations (hplace : ∀ n, place (some (.value n)) = .ok n)
    (ps : List (Operator × Option Token)) :
    (ofOperations p ps).value place = (do
      let left ← place p
      (ofOperations (some (.value left)) ps).value place) :=
  value_attachAll_of_tight (t := leaf p) hplace fun _ _ => trivial

/--
A run of operators is evaluated by its first one: what binds tighter after it belongs to its right
side, and the rest of the run applies to its result.
-/
theorem value_ofOperations_cons (hplace : ∀ n, place (some (.value n)) = .ok n) {left : Number}
    {ps qs : List (Operator × Option Token)} (hps : ∀ x ∈ ps, op.precedence < x.1.precedence)
    (hqs : ∀ x ∈ qs.head?, x.1.precedence ≤ op.precedence) :
    (ofOperations (some (.value left)) ((op, p) :: (ps ++ qs))).value place = (do
      let right ← (ofOperations p ps).value place
      let value ← apply op left right
      (ofOperations (some (.value value)) qs).value place) := by
  have htree : ofOperations (some (.value left)) ((op, p) :: (ps ++ qs)) =
      (node op (leaf (some (.value left))) (ofOperations p ps)).attachAll qs := by
    rw [ofOperations, attachAll_cons, attachAll_append, attach, attachAll_node hps]
    rfl
  rw [htree, value_attachAll_of_tight hplace hqs]
  simp only [value, hplace, ok_bind, bind_assoc]

theorem places_node {l r : Tree} : (node op l r).places = l.places ++ r.places := by
  simp only [places, first, operations, List.map_append, List.map_cons, List.cons_append]

theorem place_of_value_eq_ok {n : Number} (h : t.value place = .ok n) :
    ∀ p ∈ t.places, ∃ m, place p = .ok m := by
  induction t generalizing n with
  | leaf q =>
    intro p hp
    cases List.mem_singleton.mp hp
    exact ⟨n, h⟩
  | node op l r ihl ihr =>
    obtain ⟨a, hl, h⟩ := of_bind_eq_ok h
    obtain ⟨b, hr, -⟩ := of_bind_eq_ok h
    intro p hp
    rw [places_node] at hp
    rcases List.mem_append.mp hp with hp | hp
    · exact ihl hl p hp
    · exact ihr hr p hp

theorem value_eq_error {f : Fault} (h : t.value place = .error f) :
    f = .divisionByZero ∨ ∃ p ∈ t.places, place p = .error f := by
  induction t with
  | leaf p => exact Or.inr ⟨p, List.mem_singleton_self p, h⟩
  | node op l r ihl ihr =>
    rw [places_node]
    rcases of_bind_eq_error h with hl | ⟨a, -, h⟩
    · rcases ihl hl with hf | ⟨p, hp, hf⟩
      · exact Or.inl hf
      · exact Or.inr ⟨p, List.mem_append_left _ hp, hf⟩
    rcases of_bind_eq_error h with hr | ⟨b, -, h⟩
    · rcases ihr hr with hf | ⟨p, hp, hf⟩
      · exact Or.inl hf
      · exact Or.inr ⟨p, List.mem_append_right _ hp, hf⟩
    · exact Or.inl (eq_divisionByZero_of_apply h)

end Tree

end Abacus.Evaluation
