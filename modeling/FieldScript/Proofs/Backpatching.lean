/-
# Backpatching writes the layout

The compiler emits the jumps of a condition with zeros for targets and gives
them their targets when the places to go on are known.  Between the two, other
code is written behind the condition, which may hold conditions of its own.

`Awaits` says what an emitted condition is: raw code that becomes the code of
its jump segment once its jumps are patched, whatever exits are chosen and
whatever code stands in front of it and behind it.  The order of the patches
does not matter to those who wait: each jump is taken off the list of pending
jumps once, so what was pending before is pending again (`forM_patch_apply`).

With that, every step of the compiler writes the segment of its layout
(`codegen_emits`), and compiling a tree is laying it out (`compileInto_eq`).
-/

import FieldScript.Proofs.Emission

namespace FieldScript

namespace Pending

/-- The jumps of a condition, in the order in which they are resolved. -/
def labels : Pending → List Nat
  | test jump _ => [jump]
  | branch _ left _ right exit => left.labels ++ right.labels ++ [exit]

/-- The jumps of a condition with the targets that they get. -/
def patches : Pending → Exits → List (Nat × Nat)
  | test jump junction, exits => [(jump, exits.away junction)]
  | branch junction left rightStart right exit, exits =>
    left.patches (exits.left rightStart junction) ++ right.patches exits
      ++ [(exit, exits.through junction)]

/-- Every test was emitted for the junction under which it stands. -/
def Fits : Pending → Junction → Prop
  | test _ emitted, junction => emitted = junction
  | branch own left _ right _, _ => left.Fits own ∧ right.Fits own

theorem map_fst_patches (p : Pending) (exits : Exits) : (p.patches exits).map Prod.fst = p.labels := by
  induction p generalizing exits with
  | test jump junction => rfl
  | branch own left rightStart right exit ihl ihr =>
    rw [patches, List.map_append, List.map_append, ihl, ihr]
    rfl

end Pending

/-- **Resolving a condition is patching its jumps one after the other.** -/
theorem Emit.resolve_eq {p : Pending} {junction : Junction} (h : p.Fits junction) (exits : Exits) :
    Emit.resolve p exits junction = (p.patches exits).forM fun q => Emit.patch q.1 q.2 := by
  induction p generalizing junction exits with
  | test jump emitted =>
    obtain rfl : emitted = junction := h
    cases emitted <;> simp [Emit.resolve, Pending.patches, Exits.away]
  | branch own left rightStart right exit ihl ihr =>
    cases own <;>
      simp [Emit.resolve, ihl h.1, ihr h.2, Pending.patches, Exits.left, Exits.through]

/-! ### Patching -/

/-- Patching jumps at the given labels turns some code into other code. -/
inductive Patched : List (Nat × Nat) → List UInt8 → List UInt8 → Prop
  | nil (code : List UInt8) : Patched [] code code
  | cons {op : Opcode} {front old tail code : List UInt8} {target : Nat} {ps : List (Nat × Nat)}
      (hop : op.isJump = true) (hold : old.length = 4)
      (h : Patched ps (front ++ Line.bytes ⟨op, target.toUInt32⟩ ++ tail) code) :
      Patched ((front.length, target) :: ps) (front ++ (op.toByte :: old) ++ tail) code

theorem Patched.append {ps qs : List (Nat × Nat)} {a b c : List UInt8} (h : Patched ps a b)
    (h' : Patched qs b c) : Patched (ps ++ qs) a c := by
  induction h with
  | nil _ => exact h'
  | cons hop hold _ ih => exact .cons hop hold (ih h')

/-- The line of a jump is its opcode and four bytes. -/
theorem Line.bytes_of_isJump {op : Opcode} (h : op.isJump = true) (w : UInt32) :
    Line.bytes ⟨op, w⟩ = op.toByte :: Word.bytes w := by
  have hkind : op.operandKind = .target := of_decide_eq_true h
  rw [Line.bytes, hkind]
  rfl

/-- One jump patched. -/
theorem Patched.one {op : Opcode} (h : op.isJump = true) (front tail : List UInt8) (w : UInt32)
    (target : Nat) :
    Patched [(front.length, target)] (front ++ Line.bytes ⟨op, w⟩ ++ tail)
      (front ++ Line.bytes ⟨op, target.toUInt32⟩ ++ tail) := by
  rw [Line.bytes_of_isJump h w]
  exact .cons h (Word.length_bytes w) (.nil _)

theorem toList_overwrite {code : Array UInt8} {front old tail bytes : List UInt8}
    (h : code.toList = front ++ old ++ tail) (hlen : old.length = bytes.length) :
    (Chunk.Edit.overwrite code front.length bytes).toList = front ++ bytes ++ tail := by
  induction bytes generalizing code front old with
  | nil =>
    rw [List.eq_nil_of_length_eq_zero hlen] at h
    exact h
  | cons b bs ih =>
    obtain ⟨o, os, rfl⟩ := List.exists_cons_of_length_eq_add_one hlen
    have hfront : front.length + 1 = (front ++ [b]).length := by
      rw [List.length_append, List.length_singleton]
    have hset : (code.setIfInBounds front.length b).toList = front ++ [b] ++ os ++ tail := by
      rw [Array.toList_setIfInBounds, h, List.append_assoc, List.cons_append,
        List.set_append_right _ _ (Nat.le_refl _), Nat.sub_self, List.set_cons_zero,
        List.append_assoc, List.append_assoc, List.singleton_append]
    rw [Chunk.Edit.overwrite, hfront, ih hset (Nat.succ.inj hlen), List.append_assoc front [b],
      List.singleton_append]

theorem Chunk.Edit.patch_apply {c : Chunk} {op : Opcode} {front old tail : List UInt8}
    (hop : op.isJump = true) (hold : old.length = 4)
    (h : c.code.toList = front ++ (op.toByte :: old) ++ tail) (target : Nat) :
    Chunk.Edit.patch front.length target c =
      .ok () { c with code := (front ++ Line.bytes ⟨op, target.toUInt32⟩ ++ tail).toArray } := by
  have hbyte : c.code[front.length]? = some op.toByte := by
    rw [← Array.getElem?_toList, h, List.append_assoc, List.getElem?_append_right (Nat.le_refl _),
      Nat.sub_self]
    rfl
  have hsize : front.length + 5 ≤ c.code.size := by
    rw [← Array.length_toList, h, List.length_append, List.length_append, List.length_cons, hold]
    omega
  have hcode : c.code.toList = front ++ [op.toByte] ++ old ++ tail := by
    rw [h, List.append_assoc front [_], List.singleton_append]
  have hover : Chunk.Edit.overwrite c.code (front.length + 1) (Word.bytes target.toUInt32) =
      (front ++ Line.bytes ⟨op, target.toUInt32⟩ ++ tail).toArray := by
    apply Array.ext'
    have hfront : front.length + 1 = (front ++ [op.toByte]).length := by
      rw [List.length_append, List.length_singleton]
    rw [hfront, toList_overwrite hcode (hold.trans (Word.length_bytes _).symm),
      Line.bytes_of_isJump hop, List.append_assoc front [_], List.singleton_append]
  have hget : (get : Chunk.Edit Chunk) c = .ok c c := rfl
  rw [Chunk.Edit.patch, bind_of_ok hget]
  simp only [hbyte, Opcode.ofByte?_toByte, Option.any_some, hop, if_pos hsize, ← hover]
  rfl

/-- The state with other code and other pending jumps. -/
def Emitter.recode (s : Emitter) (code : List UInt8) (pending : List Nat) : Emitter :=
  ⟨⟨code.toArray, s.chunk.fields⟩, pending, s.log⟩

theorem Emit.patch_apply {s : Emitter} {op : Opcode} {front old tail : List UInt8}
    (hop : op.isJump = true) (hold : old.length = 4)
    (h : s.chunk.code.toList = front ++ (op.toByte :: old) ++ tail)
    (hpending : front.length ∈ s.pending) (target : Nat) :
    Emit.patch front.length target s =
      .ok () (s.recode (front ++ Line.bytes ⟨op, target.toUInt32⟩ ++ tail)
        (s.pending.erase front.length)) := by
  have hget : (get : Emit Emitter) s = .ok s s := rfl
  have hmodify : (modify fun s => { s with pending := s.pending.erase front.length } : Emit PUnit) s =
      .ok () { s with pending := s.pending.erase front.length } := rfl
  rw [Emit.patch, bind_of_ok hget, if_pos (List.contains_iff_mem.2 hpending), bind_of_ok hmodify,
    Emit.edit]
  simp only [Chunk.Edit.patch_apply hop hold h target]
  rfl

/-- **Patching all waiting jumps** changes the code as it should and leaves
pending what was pending before them. -/
theorem forM_patch_apply {ps : List (Nat × Nat)} {s : Emitter} {code : List UInt8}
    {waiting before : List Nat} (h : Patched ps s.chunk.code.toList code)
    (hpending : s.pending = waiting ++ before) (hperm : waiting.Perm (ps.map Prod.fst)) :
    (ps.forM fun q => Emit.patch q.1 q.2) s = .ok () (s.recode code before) := by
  generalize hstart : s.chunk.code.toList = start at h
  induction h generalizing s waiting with
  | nil code =>
    rw [List.map_nil, List.perm_nil] at hperm
    subst hperm hstart
    rw [List.nil_append] at hpending
    rw [Emitter.recode, ← hpending]
    rfl
  | @cons op front old tail code target ps hop hold h ih =>
    have hmem : front.length ∈ waiting := hperm.mem_iff.2 (List.mem_cons_self ..)
    have hpatch := Emit.patch_apply hop hold hstart
      (hpending ▸ List.mem_append_left before hmem) target
    show (Emit.patch front.length target >>= fun _ => ps.forM fun q => Emit.patch q.1 q.2) s = _
    rw [bind_of_ok hpatch]
    have hpending' : s.pending.erase front.length = waiting.erase front.length ++ before := by
      rw [hpending, List.erase_append_left before hmem]
    have hperm' : (waiting.erase front.length).Perm (ps.map Prod.fst) := by
      have := hperm.erase front.length
      rwa [List.map_cons, List.erase_cons_head] at this
    exact ih hpending' hperm' rfl

/-! ### Conditions -/

/-- The raw code of a condition emitted at a site, with the jumps that wait in
it: once they are patched it is the code of the jump segment, whatever the
exits are and whatever stands around it. -/
structure Awaits (c : JumpSegment) (junction : Junction) (site : Site) (p : Pending)
    (raw : List UInt8) (waiting : List Nat) : Prop where
  fits : p.Fits junction
  waiting_perm : waiting.Perm p.labels
  length_raw : raw.length = c.size
  patched : ∀ exits front tail, front.length = site.offset →
    Patched (p.patches exits) (front ++ raw ++ tail)
      (front ++ Line.encode (c.lines exits site) ++ tail)

/-- The step `x` emits the condition `c` for a junction. -/
structure EmitsJumps (x : Emit Pending) (junction : Junction) (c : JumpSegment) : Prop where
  ok : c.fault = none → ∀ s, ∃ p raw waiting, x s = .ok p (s.extend c raw waiting) ∧
    Awaits c junction s.site p raw waiting
  error : Fails x c.fault

theorem CmpOp.isJump_testOpcode (op : CmpOp) (junction : Junction) :
    (op.testOpcode junction).isJump = true := by
  cases op <;> cases junction <;> rfl

namespace EmitsJumps

theorem fails_bind {β : Type} {x : Emit Pending} {junction : Junction} {c : JumpSegment}
    {f : Pending → Emit β} {e : Option CompileError} (hx : EmitsJumps x junction c)
    (hf : ∀ p, Fails (f p) e) : Fails (x >>= f) (c.fault.or e) := by
  refine hx.error.bind (fun hc s => ?_) hf
  obtain ⟨p, raw, waiting, hp, -⟩ := hx.ok hc s
  exact ⟨p, _, hp⟩

/-- A test is one jump that waits. -/
theorem test (op : CmpOp) (junction : Junction) :
    EmitsJumps (Emit.test op junction) junction (.test op junction) := by
  refine ⟨fun _ s => ?_, Fails.of_none _⟩
  have hjump := CmpOp.isJump_testOpcode op junction
  have happly := Emit.pendingJump_apply hjump s
  refine ⟨.test s.site.offset junction, Line.bytes ⟨op.testOpcode junction, 0⟩, [s.site.offset],
    ?_, rfl, .refl _, ?_, ?_⟩
  · cases junction <;> exact bind_of_ok happly
  · rw [Line.bytes_of_isJump hjump]
    rfl
  · intro exits front tail hfront
    have hone := Patched.one hjump front tail 0 (exits.away junction)
    rw [hfront] at hone
    simpa only [JumpSegment.test, Pending.patches, Line.encode_cons, Line.encode_nil,
      List.append_nil] using hone

/-- A condition behind a segment. -/
theorem behind {α : Type} {x : Emit α} {y : Emit Pending} {junction : Junction} {a : Segment}
    {c : JumpSegment} (hx : Emits x a) (hy : EmitsJumps y junction c) :
    EmitsJumps (x >>= fun _ => y) junction (.behind a c) := by
  constructor
  · intro hfault s
    obtain ⟨ha, hc⟩ := Option.or_eq_none_iff.1 hfault
    obtain ⟨r, hr⟩ := hx.ok ha s
    have hsize : (Line.encode (a.lines s.site)).length = a.size := by
      rw [Line.length_encode, a.total_lines]
    obtain ⟨p, raw, waiting, hp, hawait⟩ := hy.ok hc (s.extend a (Line.encode (a.lines s.site)) [])
    rw [s.site_extend [] hsize] at hawait
    refine ⟨p, Line.encode (a.lines s.site) ++ raw, waiting, ?_, hawait.fits, hawait.waiting_perm,
      ?_, ?_⟩
    · rw [bind_of_ok hr, hp, s.extend_extend [] waiting hsize, List.append_nil]
      rfl
    · rw [List.length_append, hsize, hawait.length_raw]
      rfl
    · intro exits front tail hfront
      have h := hawait.patched exits (front ++ Line.encode (a.lines s.site)) tail (by
        rw [List.length_append, hsize, hfront]; rfl)
      simpa only [JumpSegment.behind, Line.encode_append, List.append_assoc] using h
  · exact hx.fails_bind fun _ => hy.error

/-- Two conditions joined: the jumps of the left one are patched in front of
the raw code of the right one, and those of the right one behind the final
code of the left one. -/
theorem branch {left right : Junction → Emit Pending} {junction : Junction} {l r : JumpSegment}
    (hl : EmitsJumps (left junction) junction l) (hr : EmitsJumps (right junction) junction r)
    (outer : Junction) :
    EmitsJumps (Emit.branch junction left right) outer (.branch junction l r) := by
  constructor
  · intro hfault s
    obtain ⟨hfaults, -⟩ := Option.or_eq_none_iff.1 hfault
    obtain ⟨hlf, hrf⟩ := Option.or_eq_none_iff.1 hfaults
    obtain ⟨p, raw, waiting, hp, hpa⟩ := hl.ok hlf s
    obtain ⟨q, raw', waiting', hq, hqa⟩ := hr.ok hrf (s.extend l raw waiting)
    rw [s.site_extend waiting hpa.length_raw] at hqa
    have hlength : (raw ++ raw').length = ((l : Footprint).seq r).size := by
      rw [List.length_append, hpa.length_raw, hqa.length_raw]
      rfl
    have hstate : (s.extend l raw waiting).extend r raw' waiting' =
        s.extend ((l : Footprint).seq r) (raw ++ raw') (waiting' ++ waiting) :=
      s.extend_extend waiting waiting' hpa.length_raw
    have hjump : Opcode.isJump .jump = true := rfl
    refine ⟨.branch junction p (s.site.after l).offset q
        (s.site.after ((l : Footprint).seq r)).offset,
      raw ++ raw' ++ Line.bytes ⟨.jump, 0⟩,
      (s.site.after ((l : Footprint).seq r)).offset :: (waiting' ++ waiting),
      ?_, ⟨hpa.fits, hqa.fits⟩, ?_, ?_, ?_⟩
    · rw [Emit.branch, bind_of_ok hp, bind_of_ok (Emit.label_extend waiting hpa.length_raw),
        bind_of_ok hq, hstate, bind_of_ok (Emit.pendingJump_extend _ hlength hjump)]
      rfl
    · rw [Pending.labels]
      refine (List.perm_append_singleton _ _).symm.trans (List.Perm.append ?_ (.refl _))
      exact (hqa.waiting_perm.append hpa.waiting_perm).trans List.perm_append_comm
    · rw [List.length_append, hlength]
      rfl
    · intro exits front tail hfront
      let ls := Line.encode (l.lines (exits.left (s.site.after l).offset junction) s.site)
      let rs := Line.encode (r.lines exits (s.site.after l))
      have hls : ls.length = l.size := by rw [Line.length_encode, l.total_lines]
      have hrs : rs.length = r.size := by rw [Line.length_encode, r.total_lines]
      have h₁ := hpa.patched (exits.left (s.site.after l).offset junction) front
        (raw' ++ Line.bytes ⟨.jump, 0⟩ ++ tail) hfront
      have h₂ := hqa.patched exits (front ++ ls) (Line.bytes ⟨.jump, 0⟩ ++ tail)
        (by rw [List.length_append, hls, hfront]; rfl)
      have h₃ := Patched.one hjump (front ++ ls ++ rs) tail 0 (exits.through junction)
      have hlabel : (front ++ ls ++ rs).length = (s.site.after ((l : Footprint).seq r)).offset := by
        rw [List.length_append, List.length_append, hls, hrs, hfront, Site.after_seq]
        rfl
      rw [hlabel] at h₃
      simp only [List.append_assoc] at h₁ h₂ h₃
      simp only [Pending.patches, JumpSegment.branch, Line.encode_append, Line.encode_cons,
        Line.encode_nil, List.append_nil, List.append_assoc]
      exact h₁.append (h₂.append h₃)
  · have hfault : (JumpSegment.branch junction l r).fault =
        l.fault.or (Option.or none (r.fault.or none)) := Option.or_assoc
    rw [hfault]
    exact hl.fails_bind fun _ => (Fails.of_none _).bind (fun _ s => ⟨_, _, rfl⟩) fun _ =>
      hr.fails_bind fun _ => Fails.of_none _

end EmitsJumps

theorem Footprint.seq_ofSize_ofSize (f : Footprint) (m n : Nat) :
    (f.seq (.ofSize m)).seq (.ofSize n) = f.seq (.ofSize (m + n)) := by
  simp [Footprint.seq, Footprint.ofSize, Nat.add_assoc]

theorem Emitter.recode_extend (s : Emitter) (f : Footprint) (raw bytes : List UInt8)
    (waiting : List Nat) :
    (s.extend f raw waiting).recode (s.chunk.code.toList ++ bytes) s.pending = s.extend f bytes [] := by
  have hcode : (s.chunk.code.toList ++ bytes).toArray = s.chunk.code ++ bytes :=
    Array.ext' Array.toList_appendList.symm
  rw [recode, hcode]
  rfl

/-- The jumps of a condition and one more jump behind it are patched in the
midst of other code, the one behind it first. -/
theorem Emitter.resolve_skip_apply {s : Emitter} {c : JumpSegment} {p : Pending}
    {raw mid : List UInt8} {waiting : List Nat} (hawait : Awaits c .and s.site p raw waiting)
    {skip : Nat} (hskip : (s.chunk.code.toList ++ raw ++ mid).length = skip) (f : Footprint)
    (tail : List UInt8) (stop : Nat) (exits : Exits) :
    (Emit.patch skip stop >>= fun _ => Emit.resolve p exits .and)
        (s.extend f (raw ++ mid ++ Line.bytes ⟨.jump, 0⟩ ++ tail) (skip :: waiting)) =
      .ok () (s.extend f (Line.encode (c.lines exits s.site) ++ mid
        ++ Line.bytes ⟨.jump, stop.toUInt32⟩ ++ tail) []) := by
  have hjump : Opcode.isJump .jump = true := rfl
  have h₁ := Patched.one hjump (s.chunk.code.toList ++ raw ++ mid) tail 0 stop
  have h₂ := hawait.patched exits s.chunk.code.toList
    (mid ++ Line.bytes ⟨.jump, stop.toUInt32⟩ ++ tail) rfl
  have hperm : (skip :: waiting).Perm (((skip, stop) :: p.patches exits).map Prod.fst) := by
    rw [List.map_cons, p.map_fst_patches]
    exact hawait.waiting_perm.cons skip
  rw [hskip] at h₁
  simp only [List.append_assoc] at h₁ h₂
  have hcode : Patched ((skip, stop) :: p.patches exits)
      (s.extend f (raw ++ mid ++ Line.bytes ⟨.jump, 0⟩ ++ tail) (skip :: waiting)).chunk.code.toList
      (s.chunk.code.toList ++ (Line.encode (c.lines exits s.site) ++ mid
        ++ Line.bytes ⟨.jump, stop.toUInt32⟩ ++ tail)) := by
    rw [s.toList_code_extend]
    simp only [List.append_assoc]
    exact h₁.append h₂
  rw [Emit.resolve_eq hawait.fits, ← s.recode_extend f _ _ (skip :: waiting)]
  exact forM_patch_apply hcode rfl hperm

namespace Emits

/-- The value of a condition: its exits are the pushes of 1 and 0. -/
theorem truthValue {condition : Junction → Emit Pending} {c : JumpSegment}
    (hc : EmitsJumps (condition .and) .and c) :
    Emits (Codegen.truthValue condition) (.truthValue c) := by
  constructor
  · intro hfault s
    obtain ⟨hcf, -⟩ := Option.or_eq_none_iff.1 hfault
    obtain ⟨p, raw, waiting, hp, hawait⟩ := hc.ok hcf s
    have hraw := hawait.length_raw
    have h₁ : (raw ++ Line.bytes ⟨.push, Single.one.bits⟩).length =
        ((c : Footprint).seq (.ofSize 5)).size := by
      rw [List.length_append, hraw]; rfl
    have h₂ : (raw ++ Line.bytes ⟨.push, Single.one.bits⟩ ++ Line.bytes ⟨.jump, 0⟩).length =
        ((c : Footprint).seq (.ofSize 10)).size := by
      rw [List.length_append, h₁]; rfl
    have h₃ : (raw ++ Line.bytes ⟨.push, Single.one.bits⟩ ++ Line.bytes ⟨.jump, 0⟩
        ++ Line.bytes ⟨.push, Single.zero.bits⟩).length = ((c : Footprint).seq (.ofSize 15)).size := by
      rw [List.length_append, h₂]; rfl
    have hskip : (s.chunk.code.toList ++ raw ++ Line.bytes ⟨.push, Single.one.bits⟩).length =
        (s.site.after ((c : Footprint).seq (.ofSize 5))).offset := by
      rw [List.append_assoc, List.length_append, h₁]; rfl
    refine ⟨(), ?_⟩
    rw [Codegen.truthValue, bind_of_ok hp, bind_of_ok (Emit.push_extend _ hraw _),
      bind_of_ok (Emit.pendingJump_extend _ h₁ rfl), Footprint.seq_ofSize_ofSize,
      bind_of_ok (Emit.push_extend _ h₂ _), Footprint.seq_ofSize_ofSize,
      bind_of_ok (Emit.label_extend _ h₃), Emitter.resolve_skip_apply hawait hskip]
    simp only [Segment.truthValue, Line.encode_append, Line.encode_cons, Line.encode_nil,
      List.append_nil, List.append_assoc]
    rfl
  · exact hc.fails_bind fun _ => Fails.of_none _

/-- A conditional: its exits are its body and its end. -/
theorem conditional {condition : Junction → Emit Pending} {body : Emit Unit} {c : JumpSegment}
    {b : Segment} (hc : EmitsJumps (condition .and) .and c) (hb : Emits body b) :
    Emits (Codegen.conditional condition body) (.conditional c b) := by
  constructor
  · intro hfault s
    obtain ⟨hfaults, -⟩ := Option.or_eq_none_iff.1 hfault
    obtain ⟨hcf, hbf⟩ := Option.or_eq_none_iff.1 hfaults
    obtain ⟨p, raw, waiting, hp, hawait⟩ := hc.ok hcf s
    have hraw := hawait.length_raw
    obtain ⟨_, hbody⟩ := hb.ok hbf (s.extend c raw waiting)
    rw [s.site_extend waiting hraw, s.extend_extend waiting [] hraw, List.nil_append] at hbody
    have h₁ : (raw ++ Line.encode (b.lines (s.site.after c))).length =
        ((c : Footprint).seq b).size := by
      rw [List.length_append, hraw, Line.length_encode, b.total_lines]; rfl
    have h₂ : (raw ++ Line.encode (b.lines (s.site.after c)) ++ Line.bytes ⟨.jump, 0⟩).length =
        (((c : Footprint).seq b).seq (.ofSize 5)).size := by
      rw [List.length_append, h₁]; rfl
    have hskip : (s.chunk.code.toList ++ raw ++ Line.encode (b.lines (s.site.after c))).length =
        (s.site.after ((c : Footprint).seq b)).offset := by
      rw [List.append_assoc, List.length_append, h₁]; rfl
    have hstop : (s.site.after (((c : Footprint).seq b).seq (.ofSize 5))).offset =
        s.site.offset + c.size + b.size + 5 := by
      rw [Site.after_seq, Site.after_seq]; rfl
    have hresolve := Emitter.resolve_skip_apply hawait hskip
      (((c : Footprint).seq b).seq (.ofSize 5)) [] (s.site.offset + c.size + b.size + 5)
      ⟨(s.site.after c).offset, s.site.offset + c.size + b.size + 5⟩
    rw [List.append_nil, List.append_nil] at hresolve
    have hlog : ∀ (es : List Event) (e : Event), (s.log ++ es).push e = s.log ++ (es ++ [e]) :=
      fun es e => Array.ext' (by
        rw [Array.toList_push, Array.toList_appendList, Array.toList_appendList, List.append_assoc])
    have hget : ∀ t : Emitter, (get : Emit Emitter) t = .ok t t := fun _ => rfl
    refine ⟨(), ?_⟩
    rw [Codegen.conditional, bind_of_ok (hget s), bind_of_ok hp,
      bind_of_ok (Emit.label_extend _ hraw), bind_of_ok hbody,
      bind_of_ok (Emit.pendingJump_extend _ h₁ rfl), bind_of_ok (Emit.label_extend _ h₂), hstop,
      ← bind_assoc, bind_of_ok hresolve, bind_of_ok (hget _)]
    dsimp only
    -- What was pending before the conditional is pending again.
    rw [Emitter.extend_pending, List.nil_append, if_neg (not_not.2 rfl), Emit.report_apply]
    simp only [Emitter.extend, Segment.conditional, Footprint.seq, Footprint.ofSize,
      Line.encode_append, Line.encode_cons, Line.encode_nil, List.append_nil, hlog]
    rfl
  · have hfault : (Segment.conditional c b).fault =
        Option.or none (c.fault.or (Option.or none (b.fault.or none))) := Option.or_assoc
    rw [hfault]
    exact (Fails.of_none _).bind (fun _ s => ⟨_, _, rfl⟩) fun _ =>
      hc.fails_bind fun _ => (Fails.of_none _).bind (fun _ s => ⟨_, _, rfl⟩) fun _ =>
        hb.fails_bind fun _ => Fails.of_none _

/-- A call of a function: its arguments are written only if it is known. -/
theorem call (name : String) {gs : List Codegen} {as : List Segment}
    (h : List.Forall₂ (fun g a => Emits (Codegen.value g) a) gs as) :
    Emits (Codegen.call name gs) (.call name as) := by
  unfold Codegen.call Segment.call
  cases intrinsic? name with
  | none =>
    refine of_apply rfl fun s => ⟨(), ?_⟩
    show (Emit.report (.unknownCall name) >>= fun _ => Emit.push Single.zero >>= fun _ => pure ()) s = _
    rw [bind_of_ok (Emit.report_apply _ s), bind_of_ok (Emit.push_apply _ _)]
    simp only [Emitter.extend, Segment.push, Segment.line, Footprint.ofSize, Line.encode_cons,
      Line.encode_nil, List.append_nil, Array.appendList_cons, Array.appendList_nil]
    rfl
  | some f =>
    dsimp only
    rw [h.length_eq]
    by_cases harity : as.length = f.arity
    · simp only [if_neg (not_not.2 harity)]
      exact (forM h).seq fun _ => emit f.opcode
    · simp only [if_pos harity]
      refine ⟨fun hfault => by simp at hfault, fun e he s => ⟨s, ?_⟩⟩
      obtain rfl : CompileError.arity name f.arity as.length = e := Option.some.inj he
      rfl

end Emits

/-! ### Trees -/

/-- The three ways to compile a node write its three layouts. -/
structure EmitsLayout (g : Codegen) (l : Layout) : Prop where
  statement : Emits g.statement l.statement
  value : Emits g.value l.value
  condition : ∀ junction, EmitsJumps (g.condition junction) junction (l.condition junction)

namespace EmitsLayout

theorem nonzero {value : Emit Unit} {a : Segment} (h : Emits value a) (junction : Junction) :
    EmitsJumps (Codegen.nonzero value junction) junction (.nonzero a junction) := by
  have hpush : Emits (value >>= fun _ => Emit.push Single.zero) (a.seq (.push Single.zero)) :=
    h.seq fun _ => .push Single.zero
  have htest := EmitsJumps.behind hpush (.test .ne junction)
  rw [bind_assoc] at htest
  exact htest

theorem ofValue {value : Emit Unit} {a : Segment} (h : Emits value a) :
    EmitsLayout (.ofValue value) (.ofValue a) :=
  ⟨h.seq fun _ => .emit .discard, h, nonzero h⟩

theorem ofStatement {statement value : Emit Unit} {a b : Segment} (ha : Emits statement a)
    (hb : Emits value b) : EmitsLayout (.ofStatement statement value) (.ofStatement a b) :=
  ⟨ha, hb, nonzero hb⟩

theorem ofCondition {condition : Junction → Emit Pending} {c : Junction → JumpSegment}
    (h : ∀ junction, EmitsJumps (condition junction) junction (c junction)) :
    EmitsLayout (.ofCondition condition) (.ofCondition c) :=
  ⟨(Emits.truthValue (h .and)).seq fun _ => .emit .discard, .truthValue (h .and), h⟩

end EmitsLayout

theorem Emits.zeroAfter {statement : Emit Unit} {a : Segment} (h : Emits statement a) :
    Emits (Codegen.zeroAfter statement) (a.seq (.push Single.zero)) :=
  h.seq fun _ => (Emits.push Single.zero).void

mutual

/-- **The compiler writes the layout of every tree.** -/
theorem Expr.codegen_emits : ∀ e : Expr, EmitsLayout e.codegen e.layout
  | .block statements => by
    have h := Emits.forM (List.forall₂_map_right_iff.2
      ((Expr.codegenAll_emits statements).imp fun _ _ h => h.statement))
    rw [Expr.codegen, Expr.layout]
    exact .ofStatement h h.zeroAfter
  | .conditional condition body => by
    have h := Emits.conditional ((Expr.codegen_emits condition).condition .and)
      (Expr.codegen_emits body).statement
    rw [Expr.codegen, Expr.layout]
    exact .ofStatement h h.zeroAfter
  | .literal x => by
    rw [Expr.codegen, Expr.layout]
    exact .ofValue (Emits.push x).void
  | .ident name => by
    rw [Expr.codegen, Expr.layout]
    exact .ofValue (.read name)
  | .assign name value => by
    have h : Emits (Codegen.write name value.codegen.value)
        (value.layout.value.seq (.access .storeField name)) :=
      (Expr.codegen_emits value).value.seq fun _ => Emits.access rfl name
    rw [Expr.codegen, Expr.layout]
    exact .ofStatement h (h.seq fun _ => Emits.access rfl name)
  | .arith op lhs rhs => by
    have h := (Expr.codegen_emits lhs).value.seq fun _ => (Expr.codegen_emits rhs).value
    have h' := h.seq fun _ => Emits.emit op.opcode
    rw [bind_assoc] at h'
    rw [Expr.codegen, Expr.layout]
    exact .ofValue h'
  | .call name args => by
    have h := (Expr.codegenAll_emits args).imp fun _ _ h => h.value
    rw [Expr.codegen, Expr.layout]
    exact .ofValue (.call name (List.forall₂_map_right_iff.2 h))
  | .cmp op lhs rhs => by
    have h := (Expr.codegen_emits lhs).value.seq fun _ => (Expr.codegen_emits rhs).value
    rw [Expr.codegen, Expr.layout]
    refine .ofCondition fun junction => ?_
    have h' := EmitsJumps.behind h (.test op junction)
    rw [bind_assoc] at h'
    exact h'
  | .or lhs rhs => by
    rw [Expr.codegen, Expr.layout]
    exact .ofCondition fun junction => .branch ((Expr.codegen_emits lhs).condition .or)
      ((Expr.codegen_emits rhs).condition .or) junction
  | .and lhs rhs => by
    rw [Expr.codegen, Expr.layout]
    exact .ofCondition fun junction => .branch ((Expr.codegen_emits lhs).condition .and)
      ((Expr.codegen_emits rhs).condition .and) junction

theorem Expr.codegenAll_emits :
    ∀ es : List Expr, List.Forall₂ EmitsLayout (Expr.codegenAll es) (Expr.layoutAll es)
  | [] => by
    rw [Expr.codegenAll, Expr.layoutAll]
    exact .nil
  | e :: es => by
    rw [Expr.codegenAll, Expr.layoutAll]
    exact .cons (Expr.codegen_emits e) (Expr.codegenAll_emits es)

end

namespace Expr

/-- The chunk with a tree laid out behind its code. -/
def laidOut (e : Expr) (c : Chunk) : Chunk :=
  ⟨c.code ++ Line.encode (e.program.lines ⟨c.size, c.names⟩),
    (c.declareAll e.program.assigned).fields⟩

theorem toList_code_laidOut (e : Expr) {c : Chunk} (h : c.code = #[]) :
    (e.laidOut c).code.toList = Line.encode (e.program.lines ⟨0, c.names⟩) := by
  rw [laidOut, Chunk.size, Array.toList_appendList, h]
  rfl

theorem names_laidOut (e : Expr) (c : Chunk) :
    (e.laidOut c).names = (Site.after ⟨0, c.names⟩ e.layout.statement).names := by
  rw [Chunk.names, laidOut, program, Segment.seq]
  exact (c.names_declareAll _).trans (congrArg Site.names (Site.after_seq ⟨0, c.names⟩ _ _))

theorem size_laidOut (e : Expr) {c : Chunk} (hcode : c.code = #[]) :
    (e.laidOut c).size = e.program.size := by
  rw [Chunk.size, ← Array.length_toList, e.toList_code_laidOut hcode, Line.length_encode,
    e.program.total_lines]

theorem names_laidOut_eq (e : Expr) (c : Chunk) :
    (e.laidOut c).names = e.program.assigned.foldl declareName c.names :=
  c.names_declareAll e.program.assigned

theorem emitProgram_eq (e : Expr) (s : Emitter) :
    e.emitProgram s = ((e.codegen.statement >>= fun _ => Emit.emit .ret) >>= fun _ => do
      let s ← get
      if s.pending ≠ [] then throw (.patch .unbalanced)
      Emit.report (.compiledChunk s.chunk.size s.chunk.fields.size)) s := by
  rw [bind_assoc]
  rfl

/-- A tree without a fault is laid out, and its reports are those of its parts. -/
theorem compileInto_eq {e : Expr} (hfault : e.program.fault = none) (c : Chunk) :
    e.compileInto c = ⟨.ok (e.laidOut c), e.program.events ⟨c.size, c.names⟩ ++
      [.compiledChunk (e.laidOut c).size (e.laidOut c).fields.size]⟩ := by
  have hprogram := e.codegen_emits.statement.seq fun _ => Emits.emit .ret
  obtain ⟨_, ht⟩ := hprogram.ok hfault ⟨c, [], #[]⟩
  rw [compileInto, emitProgram_eq, bind_of_ok ht]
  show Compiled.mk (.ok (e.laidOut c)) (((#[] : Array Event) ++ e.program.events ⟨c.size, c.names⟩).push
    (.compiledChunk (e.laidOut c).size (e.laidOut c).fields.size)).toList = _
  rw [Array.toList_push, Array.toList_appendList]
  rfl

/-- **Compiling a tree is laying it out,** unless there is a fault in it. -/
theorem result_compileInto (e : Expr) (c : Chunk) :
    (e.compileInto c).result = match e.program.fault with
      | some fault => .error fault
      | none => .ok (e.laidOut c) := by
  cases hfault : e.program.fault with
  | some fault =>
    have hprogram := e.codegen_emits.statement.seq fun _ => Emits.emit .ret
    obtain ⟨t, ht⟩ := hprogram.error fault hfault ⟨c, [], #[]⟩
    rw [compileInto, emitProgram_eq, bind_of_error ht]
  | none => rw [compileInto_eq hfault]

theorem eq_laidOut_of_result {e : Expr} {c f : Chunk} (h : (e.compileInto c).result = .ok f) :
    e.program.fault = none ∧ f = e.laidOut c := by
  rw [result_compileInto] at h
  cases hfault : e.program.fault with
  | some fault =>
    rw [hfault] at h
    cases h
  | none =>
    rw [hfault] at h
    cases h
    exact ⟨rfl, rfl⟩

end Expr
end FieldScript
