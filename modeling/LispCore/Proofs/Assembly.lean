import LispCore.Proofs.Demand
import LispCore.Proofs.Fixups
import LispCore.Proofs.Tree

/-!
# The code of a tree, written down at once

Lowering builds code through a stream: jumps point to labels, labels are marked later, and
operands come out of pools that grow on the way. The finished code is nevertheless a plain
function of the tree, once it is known which index each operand has. `Node.code` is that
function: a jump carries its distance, which is one more than the length of the code it
skips.

What holds of compiled code is therefore shown by induction on the tree, without a look at
labels. Here it is shown of offsets: they all point ahead, and none leaves the code.

The rest of the module says how a stream becomes code. A stream *realizes* some code when its
items assemble to the instructions of that code, in the stream itself and in all that may
become of it; finishing such a stream gives the code, unless an offset does not fit.

## Main results

* `Node.pointsAhead_code`: the offsets in the code of a tree point ahead.
* `Stream.instrs_of_realizes`: a stream that realizes some code finishes as that code.
-/

namespace LispCore

/-! ### The code of a tree -/

/-- The index of each operand. -/
structure Operands where
  const : Val → Nat
  type : Ty → Nat
  temp : VarId → Nat

namespace Operands

variable (o : Operands)

/-- An access to the place of a reference, by the instruction for its kind of place. -/
def access (slot temp global : Nat → Instr) : Option Reference → List Instr
  | none => []
  | some r =>
    match r.place with
    | .slot i => [slot i]
    | .temp _ => [temp (o.temp r.target.id)]
    | .global name => [global (o.const (.symbol name))]

/-- Pushes the value of a use. -/
def load (ref : Option Reference) : List Instr :=
  o.access .loadSlot .loadTemp .loadGlobal ref

/-- Pops a value into the place of a use. -/
def store (ref : Option Reference) : List Instr :=
  o.access .storeSlot .storeTemp .storeGlobal ref

/-- Coerces the top to a type; every value has type `any` as it is. -/
def coerce (t : Ty) : List Instr :=
  if t = .any then [] else [.coerce (o.type t)]

/-- Forgets the temporaries among the locals of a block. -/
def dropTemps (locals : List Variable) : List Instr :=
  (locals.filter fun x => x.kind = .temporary).map fun x => .dropTemp (o.temp x.id)

end Operands

/-- Whether the end of a clause with this body is a jump to the end of its conditional. -/
def Node.jumpsOut (elide : Bool) (body : Node) : Bool :=
  !elide || body.fallsThrough

/-- The code of a clause from the code of its test and its body, with `later` instructions
between it and the end of the conditional. A false test goes on right behind the clause. -/
def clauseCode (test body : List Instr) (jumps : Bool) (later : Nat) : List Instr :=
  let leave : List Instr := if jumps then [.jump (later + 1)] else []
  test ++ [.branchFalse (body.length + leave.length + 1)] ++ body ++ leave

namespace Node

variable (o : Operands) (elide : Bool)

mutual

/-- The finished code of a tree. -/
def code : Node → List Instr
  | .literal v => [.loadConst (o.const v)]
  | .read _ ref => o.load ref
  | .assign x value _ ref => value.code ++ o.coerce x.ty ++ [.dup] ++ o.store ref
  | .cond clauses otherwise =>
    codeClauses (codeOption otherwise).length clauses ++ codeOption otherwise
  | .block locals body _ => codeBody body ++ o.dropTemps locals
  | .call callee args => callee.code ++ codeArgs args ++ [.call args.length]
  | .ret value => codeOption value ++ [.ret]
  | .cont => [.cont]

/-- The code of an optional tree. -/
def codeOption : Option Node → List Instr
  | none => [.loadConst (o.const .unspecified)]
  | some n => n.code

/-- The code of clauses, with `after` instructions between it and the end of the
conditional. -/
def codeClauses (after : Nat) : List (Node × Node) → List Instr
  | [] => []
  | (test, body) :: rest =>
    clauseCode test.code body.code (body.jumpsOut elide)
      ((codeClauses after rest).length + after) ++ codeClauses after rest

/-- The code of a sequence. -/
def codeBody : List Node → List Instr
  | [] => [.loadConst (o.const .unspecified)]
  | [n] => n.code
  | n :: m :: ns => n.code ++ [.pop] ++ codeBody (m :: ns)

/-- The code of arguments. -/
def codeArgs : List Node → List Instr
  | [] => []
  | n :: ns => n.code ++ codeArgs ns

end

end Node

/-! ### Finished instructions -/

/-- The offset of a jump or a branch. -/
def Instr.offset? : Instr → Option Int
  | .jump d | .branchFalse d => some d
  | _ => none

/-- The offset, if there is one, fits a signed word of 32 bits. -/
def Instr.Fits (i : Instr) : Prop :=
  ∀ d ∈ i.offset?, -0x80000000 ≤ d ∧ d < 0x80000000

instance : DecidablePred Instr.Fits := fun i =>
  inferInstanceAs (Decidable (∀ d ∈ i.offset?, -0x80000000 ≤ d ∧ d < 0x80000000))

/-- An instruction at a position, refused when its offset does not fit. -/
def Instr.checked (position : Nat) (i : Instr) : Except Fault Instr :=
  if i.Fits then .ok i else .error (.jumpTooFar position)

/-! ### Offsets -/

/-- Every offset points ahead, at most `extra` positions past the end. -/
def PointsAhead (is : List Instr) (extra : Nat) : Prop :=
  ∀ (k : Nat) (i : Instr), is[k]? = some i → ∀ d ∈ i.offset?, 1 ≤ d ∧ k + d ≤ is.length + extra

namespace PointsAhead

variable {is js : List Instr} {extra : Nat}

/-- Instructions without offsets. -/
theorem of_no_offset (h : ∀ i ∈ is, i.offset? = none) : PointsAhead is extra := by
  intro k i hk d hd
  rw [h i (List.mem_of_getElem? hk)] at hd
  exact absurd hd (by simp)

/-- One instruction whose offset points at most `extra` positions past it. -/
theorem singleton {i : Instr} (h : ∀ d ∈ i.offset?, 1 ≤ d ∧ d ≤ extra + 1) :
    PointsAhead [i] extra := by
  intro k j hk d hd
  obtain ⟨rfl, rfl⟩ : k = 0 ∧ i = j := by
    cases k with
    | zero => exact ⟨rfl, Option.some.inj hk⟩
    | succ k => exact absurd hk (by simp)
  have := h d hd
  simp only [List.length_singleton]
  omega

/-- Offsets may point further if there is more behind the code. -/
theorem mono {extra' : Nat} (h : PointsAhead is extra) (hle : extra ≤ extra') :
    PointsAhead is extra' := by
  intro k i hk d hd
  have := h k i hk d hd
  omega

/-- Code in two parts: the first may point into the second. -/
theorem append (h : PointsAhead is (js.length + extra)) (h' : PointsAhead js extra) :
    PointsAhead (is ++ js) extra := by
  intro k i hk d hd
  rw [List.length_append]
  by_cases hlt : k < is.length
  · rw [List.getElem?_append_left hlt] at hk
    have := h k i hk d hd
    omega
  · rw [List.getElem?_append_right (by omega)] at hk
    have := h' _ i hk d hd
    omega

/-- A clause points to its own end and to the end of the conditional. -/
theorem clauseCode {test body : List Instr} (ht : PointsAhead test 0)
    (hb : PointsAhead body 0) (jumps : Bool) (later : Nat) :
    PointsAhead (clauseCode test body jumps later) later := by
  refine (((ht.mono (Nat.zero_le _)).append (singleton fun d hd => ?_)).append
    (hb.mono (Nat.zero_le _))).append ?_
  · obtain rfl := Option.some.inj hd
    omega
  · cases jumps with
    | false => exact of_no_offset (by simp)
    | true =>
        refine singleton fun d hd => ?_
        obtain rfl := Option.some.inj hd
        omega

/-- Offsets that stay inside short code fit. -/
theorem fits (h : PointsAhead is 0) (hlen : is.length < 0x80000000) :
    ∀ i ∈ is, i.Fits := by
  intro i hi d hd
  obtain ⟨k, hk⟩ := List.mem_iff_getElem?.mp hi
  have := h k i hk d hd
  omega

end PointsAhead

/-- An access to a place has a property if the instructions for all kinds of places have it. -/
theorem Operands.forall_access {o : Operands} {slot temp global : Nat → Instr} {P : Instr → Prop}
    (hs : ∀ k, P (slot k)) (ht : ∀ k, P (temp k)) (hg : ∀ k, P (global k))
    (ref : Option Reference) : ∀ i ∈ o.access slot temp global ref, P i := by
  cases ref with
  | none => simp [access]
  | some r =>
      intro i hi
      simp only [access] at hi
      split at hi <;> obtain rfl := List.mem_singleton.mp hi
      · exact hs _
      · exact ht _
      · exact hg _

/-- A coercion has no offset. -/
theorem Operands.offset?_coerce {o : Operands} (t : Ty) :
    ∀ i ∈ o.coerce t, i.offset? = none := by
  intro i hi
  unfold coerce at hi
  split at hi
  · exact absurd hi (by simp)
  · obtain rfl := List.mem_singleton.mp hi
    rfl

/-- A load has no offset. -/
theorem Operands.offset?_load {o : Operands} (ref : Option Reference) :
    ∀ i ∈ o.load ref, i.offset? = none :=
  forall_access (P := fun i => i.offset? = none) (fun _ => rfl) (fun _ => rfl) (fun _ => rfl)
    ref

/-- A store has no offset. -/
theorem Operands.offset?_store {o : Operands} (ref : Option Reference) :
    ∀ i ∈ o.store ref, i.offset? = none :=
  forall_access (P := fun i => i.offset? = none) (fun _ => rfl) (fun _ => rfl) (fun _ => rfl)
    ref

/-- Forgetting temporaries has no offset. -/
theorem Operands.offset?_dropTemps {o : Operands} (locals : List Variable) :
    ∀ i ∈ o.dropTemps locals, i.offset? = none := by
  intro i hi
  obtain ⟨x, -, rfl⟩ := List.mem_map.mp hi
  rfl

namespace Node

variable {o : Operands} {elide : Bool}

/-- The offsets of an optional tree. -/
theorem pointsAhead_codeOption {t : Option Node}
    (ih : ∀ n ∈ t, PointsAhead (n.code o elide) 0) : PointsAhead (codeOption o elide t) 0 := by
  cases t with
  | none => exact .of_no_offset (by simp [codeOption, Instr.offset?])
  | some n => exact ih n rfl

/-- The offsets of clauses, which may point to the end of the conditional. -/
theorem pointsAhead_codeClauses {cs : List (Node × Node)}
    (ih : ∀ c ∈ cs, PointsAhead (c.1.code o elide) 0 ∧ PointsAhead (c.2.code o elide) 0)
    (after : Nat) : PointsAhead (codeClauses o elide after cs) after := by
  induction cs with
  | nil => exact .of_no_offset (by simp [codeClauses])
  | cons c cs ihc =>
      obtain ⟨test, body⟩ := c
      obtain ⟨⟨htest, hbody⟩, hrest⟩ := List.forall_mem_cons.mp ih
      exact (PointsAhead.clauseCode htest hbody _ _).append (ihc hrest)

/-- The offsets of a sequence. -/
theorem pointsAhead_codeBody {ns : List Node} (ih : ∀ n ∈ ns, PointsAhead (n.code o elide) 0) :
    PointsAhead (codeBody o elide ns) 0 := by
  induction ns with
  | nil => exact .of_no_offset (by simp [codeBody, Instr.offset?])
  | cons n ns ihn =>
      obtain ⟨hn, hns⟩ := List.forall_mem_cons.mp ih
      cases ns with
      | nil => exact hn
      | cons m ns =>
          refine (PointsAhead.append (hn.mono (Nat.zero_le _)) ?_).append (ihn hns)
          exact .of_no_offset (by simp [Instr.offset?])

/-- The offsets of arguments. -/
theorem pointsAhead_codeArgs {ns : List Node} (ih : ∀ n ∈ ns, PointsAhead (n.code o elide) 0) :
    PointsAhead (codeArgs o elide ns) 0 := by
  induction ns with
  | nil => exact .of_no_offset (by simp [codeArgs])
  | cons n ns ihn =>
      obtain ⟨hn, hns⟩ := List.forall_mem_cons.mp ih
      exact (hn.mono (Nat.zero_le _)).append (ihn hns)

/-- **The offsets in the code of a tree point ahead and not past its end.** -/
theorem pointsAhead_code (n : Node) : PointsAhead (n.code o elide) 0 := by
  induction n with
  | literal v => exact .of_no_offset (by simp [code, Instr.offset?])
  | read x ref => exact .of_no_offset (Operands.offset?_load ref)
  | assign x value d ref ih =>
      refine (((ih.mono (Nat.zero_le _)).append ?_).append ?_).append ?_
      · exact .of_no_offset (Operands.offset?_coerce x.ty)
      · exact .of_no_offset (by simp [Instr.offset?])
      · exact .of_no_offset (Operands.offset?_store ref)
  | cond clauses otherwise ihc iho =>
      exact (pointsAhead_codeClauses ihc _).append (pointsAhead_codeOption iho)
  | block locals body r ih =>
      exact ((pointsAhead_codeBody ih).mono (Nat.zero_le _)).append
        (.of_no_offset (Operands.offset?_dropTemps locals))
  | call callee args ihf iha =>
      refine (PointsAhead.append (ihf.mono (Nat.zero_le _))
        ((pointsAhead_codeArgs iha).mono (Nat.zero_le _))).append ?_
      exact .of_no_offset (by simp [Instr.offset?])
  | ret value ih =>
      refine ((pointsAhead_codeOption ih).mono (Nat.zero_le _)).append ?_
      exact .of_no_offset (by simp [Instr.offset?])
  | cont => exact .of_no_offset (by simp [code, Instr.offset?])

end Node

/-! ### Finishing a stream -/

namespace Stream

/-- From position `p` on, the items stand for the code: each is assembled to its instruction,
or refused because the offset does not fit. -/
inductive StandFor (s : Stream) : Nat → List Item → List Instr → Prop
  | nil {p : Nat} : StandFor s p [] []
  | cons {p : Nat} {it : Item} {i : Instr} {items : List Item} {code : List Instr}
      (h : s.assemble p it = i.checked p) (hs : StandFor s (p + 1) items code) :
      StandFor s p (it :: items) (i :: code)

/-- Items that stand for code are assembled exactly when all offsets fit. -/
theorem StandFor.assembleFrom_eq_ok {s : Stream} {p : Nat} {items : List Item}
    {code is : List Instr} (h : s.StandFor p items code) :
    s.assembleFrom p items = .ok is ↔ (∀ i ∈ code, i.Fits) ∧ is = code := by
  induction h generalizing is with
  | nil =>
      rw [assembleFrom]
      simp [eq_comm]
  | @cons p it i items code h _ ih =>
      rw [assembleFrom_cons_eq_ok, h, Instr.checked, List.forall_mem_cons]
      by_cases hfits : i.Fits
      · simp [hfits, ih, and_assoc]
      · simp [hfits]

/-- Items stand for code when each of them does, position by position. -/
theorem standFor_of_getElem? {s : Stream} {p : Nat} {items : List Item} {code : List Instr}
    (hlen : items.length = code.length)
    (h : ∀ (k : Nat) (i : Instr), code[k]? = some i →
      ∃ it, items[k]? = some it ∧ s.assemble (p + k) it = i.checked (p + k)) :
    s.StandFor p items code := by
  induction code generalizing p items with
  | nil =>
      obtain rfl : items = [] := List.eq_nil_of_length_eq_zero hlen
      exact .nil
  | cons i code ih =>
      obtain ⟨it, hit, hfirst⟩ := h 0 i rfl
      cases items with
      | nil => exact absurd hit (by simp)
      | cons it' items =>
          obtain rfl := Option.some.inj hit
          refine .cons hfirst (ih (by simpa using hlen) fun k j hk => ?_)
          obtain ⟨it, hit, hrest⟩ := h (k + 1) j hk
          exact ⟨it, hit, by simpa only [Nat.add_assoc, Nat.add_comm 1] using hrest⟩

/-! ### Streams that realize code -/

/-- What may become of a stream: items only come at the end, and a marked label stays where
it is. -/
structure Later (s t : Stream) : Prop where
  items : ∀ (p : Nat) (it : Item), s.items[p]? = some it → t.items[p]? = some it
  position : ∀ (l : Label) (p : Nat), s.position? l = some p → t.position? l = some p

/-- A stream is its own future. -/
theorem Later.refl (s : Stream) : s.Later s :=
  ⟨fun _ _ h => h, fun _ _ h => h⟩

/-- The future of the future is the future. -/
theorem Later.trans {s t u : Stream} (h : s.Later t) (h' : t.Later u) : s.Later u :=
  ⟨fun p it hp => h'.items p it (h.items p it hp),
    fun l p hl => h'.position l p (h.position l p hl)⟩

/-- From `p` on the items of the stream are those of the given code: each is assembled to
its instruction, or refused because the offset does not fit. -/
def Realizes (t : Stream) (p : Nat) (code : List Instr) : Prop :=
  ∀ (k : Nat) (i : Instr), code[k]? = some i →
    ∃ it, t.items[p + k]? = some it ∧ t.assemble (p + k) it = i.checked (p + k)

/-- Code in two parts is realized part by part. -/
theorem realizes_append {t : Stream} {p : Nat} {c d : List Instr} :
    t.Realizes p (c ++ d) ↔ t.Realizes p c ∧ t.Realizes (p + c.length) d := by
  constructor
  · intro h
    refine ⟨fun k i hk => h k i ?_, fun k i hk => ?_⟩
    · rw [List.getElem?_append_left (List.getElem?_eq_some_iff.mp hk).1, hk]
    · rw [Nat.add_assoc]
      refine h (c.length + k) i ?_
      rw [List.getElem?_append_right (by omega), Nat.add_sub_cancel_left, hk]
  · rintro ⟨hc, hd⟩ k i hk
    by_cases hlt : k < c.length
    · exact hc k i (by rwa [List.getElem?_append_left hlt] at hk)
    · rw [List.getElem?_append_right (by omega)] at hk
      have h := hd (k - c.length) i hk
      rwa [Nat.add_assoc, Nat.add_sub_cancel' (by omega)] at h

/-- A stream that is realized whole by some code finishes exactly when all offsets fit, and
then as that code. -/
theorem instrs_of_realizes {s : Stream} {code : List Instr} (h : s.Realizes 0 code)
    (hsize : s.size = code.length) {is : Array Instr} :
    s.instrs = .ok is ↔ (∀ i ∈ code, i.Fits) ∧ is = code.toArray := by
  have hstand : s.StandFor 0 s.items.toList code := by
    refine standFor_of_getElem? (by rw [Array.length_toList, size_items, hsize]) fun k i hk => ?_
    obtain ⟨it, hit, hok⟩ := h k i hk
    rw [Nat.zero_add] at hit
    exact ⟨it, by rw [Array.getElem?_toList, hit], hok⟩
  rw [instrs_eq_ok_iff, hstand.assembleFrom_eq_ok]
  exact and_congr_right fun _ => by rw [← Array.toList_inj, List.toList_toArray]

end Stream

end LispCore
