import MiniRedis.Frame.Safety
import MiniRedis.Frame.NormalForm
import MiniRedis.Frame.Limits

/-!
# Decoding does not amplify its input

A declared length is only used to reserve memory when the check has found that
many elements behind it, and each element is paid for by three bytes of the input.
-/
namespace MiniRedis

open Library Library.Audited

/-! ### Reserved lengths -/

def Note.request : Note → Option (ℕ × ℕ)
  | .sum _ _ => none
  | .reserve position capacity => some (position, capacity)

/-- The positions and lengths for which a run reserves a vector. -/
def requests {α : Type} (q : AuditM α) (src : Cursor) : List (ℕ × ℕ) :=
  (written q src).filterMap Note.request

/-- As many elements as are asked for lie at the position, and the check accepts each. -/
def Found (data : Bytes) (request : ℕ × ℕ) : Prop :=
  ∃ depth stop, depth < maxArrayDepth ∧
    CursorM.forCount (checkWithDepth (depth + 1)) request.2 ⟨data, request.1⟩ = (.ok (), stop)

def Frame.arrayLength : Frame → Option ℕ
  | .array elements => some elements.length
  | _ => none

/-- The lengths of the arrays of a frame, each before those inside it. -/
def Frame.arrayLengths (frame : Frame) : List ℕ := frame.nodes.filterMap Frame.arrayLength

theorem Frame.nodesAll_length (frames : List Frame)
    (h : ∀ frame ∈ frames, frame.arrayLengths.sum + 1 = frame.nodes.length) :
    ((nodesAll frames).filterMap Frame.arrayLength).sum + frames.length =
      (nodesAll frames).length := by
  induction frames with
  | nil => rfl
  | cons frame frames ih =>
    have hhead := h frame List.mem_cons_self
    have htail := ih fun other hother => h other (List.mem_cons_of_mem _ hother)
    rw [Frame.arrayLengths] at hhead
    rw [nodesAll, List.filterMap_append, List.sum_append, List.length_append, List.length_cons]
    omega

/-- Every node but the root is an element of exactly one array. -/
theorem Frame.sum_arrayLengths : ∀ frame : Frame,
    frame.arrayLengths.sum + 1 = frame.nodes.length
  | .simple _ => rfl
  | .error _ => rfl
  | .integer _ => rfl
  | .bulk _ => rfl
  | .null => rfl
  | .array elements => by
    have hinner := Frame.nodesAll_length elements fun frame _ => Frame.sum_arrayLengths frame
    rw [Frame.arrayLengths, Frame.nodes, List.filterMap_cons, List.length_cons]
    simp only [Frame.arrayLength, List.sum_cons]
    omega

section Requests

variable {α γ : Type} {q : AuditM α} {p : CursorM α} {f : α → AuditM γ}

/-- No note asks for memory. -/
def NoRequest (note : Note) : Prop := note.request = none

theorem requests_quiet (h : Notes (fun _ => True) NoRequest q p) (src : Cursor) :
    requests q src = [] :=
  List.filterMap_eq_nil_iff.mpr fun v hv => h.lawful src trivial v hv

theorem requests_bind_error (hq : Erases q p) {src : Cursor} {e : Stop}
    (hp : (p src).1 = .error e) : requests (q >>= f) src = requests q src := by
  rcases hrun : p src with ⟨_ | _, t⟩
  · rw [requests, hq.written_bind_error hrun]
    rfl
  · rw [hrun] at hp
    cases hp

theorem requests_bind_ok (hq : Erases q p) {src t : Cursor} {a : α} (hp : p src = (.ok a, t))
    {r : CursorM γ} (hf : Erases (f a) r) :
    requests (q >>= f) src = requests q src ++ requests (f a) t := by
  rw [requests, hq.written_bind_ok hp hf, List.filterMap_append]
  rfl

/-- Behind a quiet part only the rest counts. -/
theorem requests_bind_quiet (h : Notes (fun _ => True) NoRequest q p) {src t : Cursor} {a : α}
    (hp : p src = (.ok a, t)) {r : CursorM γ} (hf : Erases (f a) r) :
    requests (q >>= f) src = requests (f a) t := by
  rw [requests_bind_ok h.erases hp hf, requests_quiet h, List.nil_append]

theorem requests_map (hq : Erases q p) (g : α → γ) (src : Cursor) :
    requests (q >>= fun a => pure (g a)) src = requests q src := by
  rcases hp : p src with ⟨e | a, t⟩
  · exact requests_bind_error hq (by rw [hp])
  · rw [requests_bind_ok hq hp (Erases.pure (g a))]
    exact List.append_nil _

end Requests

theorem getLine_quiet : Notes (fun _ => True) NoRequest Audit.getLine getLine :=
  getLine_notes fun _ _ => rfl

/-- Any notes. -/
abbrev Free {α : Type} (q : AuditM α) (p : CursorM α) : Prop :=
  Notes (fun _ => True) (fun _ => True) q p

theorem getLine_free : Free Audit.getLine getLine := getLine_notes fun _ _ => trivial

theorem parseData_free (fuel : ℕ) : Free (Audit.parseData fuel) (parseData fuel) :=
  parseData_notes getLine_free (fun _ _ => trivial) (fun _ _ => trivial) fuel

theorem arrayData_free (fuel : ℕ) :
    Free (Audit.arrayData (Audit.parseData fuel)) (arrayData (parseData fuel)) :=
  arrayData_notes getLine_free (fun _ _ => trivial) (parseData_free fuel)

theorem collect_free (fuel count : ℕ) :
    Free (Audit.collect (Audit.parseData fuel) count) (CursorM.collect (parseData fuel) count) :=
  collect_notes (parseData_free fuel) count

theorem check_quiet (depth : ℕ) :
    Notes (fun _ => True) NoRequest (Audit.checkWithDepth depth) (checkWithDepth depth) :=
  checkWithDepth_notes getLine_quiet (fun _ _ => rfl) depth

/-! ### Behind a check -/

/-- The decoding pass on a shape at the cursor. -/
theorem Shape.parseData_run {levels depth fuel : ℕ} {used rest : Bytes} {sk : Skeleton}
    (h : Shape depth used sk) (hlevels : levels + depth = maxArrayDepth) {src : Cursor}
    (hunread : src.unread = used ++ rest) (hfuel : src.unread.length < fuel) :
    Decodes (parseData fuel src) (decode sk) (src.skip used.length) := by
  have hcomplete := h.complete hlevels rest
  rw [← hunread] at hcomplete
  exact parseData_decodes levels fuel src sk used.length hfuel hcomplete

/-- The elements of an array are found by the loop of the check. -/
theorem ShapeAll.found {depth : ℕ} {body rest : Bytes} {elements : List Skeleton}
    (h : ShapeAll (depth + 1) body elements) (hdepth : depth < maxArrayDepth) {src : Cursor}
    (hunread : src.unread = body ++ rest) : Found src.data (src.position, elements.length) := by
  have hlevels : (maxArrayDepth - (depth + 1)) + (depth + 1) = maxArrayDepth := by omega
  have hcomplete := h.complete hlevels rest
  rw [← hunread] at hcomplete
  obtain ⟨_, hrun, _⟩ :=
    ((checkWithDepth_refines (depth + 1)).forCount elements.length).of_complete hcomplete
  exact ⟨depth, _, hdepth, hrun⟩

/-- What may be asked for: elements that were found, and on success the arrays' lengths. -/
structure Asked (data : Bytes) (asked : List (ℕ × ℕ)) (lengths : Except String (List ℕ)) :
    Prop where
  found : ∀ request ∈ asked, Found data request
  exact : ∀ l, lengths = .ok l → asked.map Prod.snd = l

theorem Asked.nil {data : Bytes} : Asked data [] (.ok []) where
  found request h := by cases h
  exact l h := by
    cases h
    rfl

section decoded

variable {β : Type} {data : Bytes} {asked : List (ℕ × ℕ)} {result : Except String β}
  {f : β → List ℕ}

theorem Asked.of_map (hfound : ∀ request ∈ asked, Found data request)
    (hexact : ∀ b, result = .ok b → asked.map Prod.snd = f b) :
    Asked data asked (result.map f) where
  found := hfound
  exact l hl := by
    cases result with
    | error message => cases hl
    | ok b =>
      cases hl
      exact hexact b rfl

theorem Asked.exact_of_ok (h : Asked data asked (result.map f)) {b : β} (hb : result = .ok b) :
    asked.map Prod.snd = f b :=
  h.exact (f b) (by rw [hb]; rfl)

end decoded

/-- The elements of an array ask one after the other. -/
theorem collect_asked {fuel depth : ℕ} (hdepth : depth ≤ maxArrayDepth)
    (hchild : ∀ (src : Cursor) (used rest : Bytes) (sk : Skeleton), src.unread.length < fuel →
      src.unread = used ++ rest → Shape depth used sk →
      Asked src.data (requests (Audit.parseData fuel) src)
        ((decode sk).map Frame.arrayLengths))
    {body : Bytes} {sks : List Skeleton} (h : ShapeAll depth body sks) (src : Cursor) (rest : Bytes)
    (hfuel : src.unread.length < fuel) (hunread : src.unread = body ++ rest) :
    Asked src.data (requests (Audit.collect (Audit.parseData fuel) sks.length) src)
      ((decodeAll sks).map fun frames =>
        (Frame.nodesAll frames).filterMap Frame.arrayLength) := by
  have hlevels : (maxArrayDepth - depth) + depth = maxArrayDepth := by omega
  induction sks generalizing body src with
  | nil =>
    rw [decodeAll]
    exact Asked.nil
  | cons sk sks ih =>
    cases h with
    | @cons _ first others _ _ hfirst hothers =>
    rw [List.append_assoc] at hunread
    have hhead := hchild src first (others ++ rest) sk hfuel hunread hfirst
    have hrun := hfirst.parseData_run hlevels hunread hfuel
    have hnext : (src.skip first.length).unread = others ++ rest := by
      rw [Cursor.unread_skip, hunread, List.drop_left]
    have hshort : (src.skip first.length).unread.length < fuel := by
      rw [Cursor.unread_skip, List.length_drop]
      omega
    have htail := ih hothers (src.skip first.length) hshort hnext
    have htailErases : ∀ frame, Erases
        (Audit.collect (Audit.parseData fuel) sks.length >>= fun elements =>
          pure (frame :: elements))
        (CursorM.collect (parseData fuel) sks.length >>= fun elements =>
          pure (frame :: elements)) := fun frame =>
      (collect_free fuel sks.length).erases.bind fun _ _ _ _ => .pure _
    rw [List.length_cons, Audit.collect]
    cases hdecode : decode sk with
    | error message =>
      rw [requests_bind_error (parseData_free fuel).erases (hrun.fst_of_error hdecode)]
      refine .of_map hhead.found fun frames hframes => ?_
      obtain ⟨frame, _, _, hframe, _⟩ := decodeAll_cons_eq_ok hframes
      cases hdecode.symm.trans hframe
    | ok frame =>
      rw [requests_bind_ok (parseData_free fuel).erases (hrun.eq_of_ok hdecode) (htailErases frame),
        requests_map (collect_free fuel sks.length).erases]
      refine .of_map ?_ fun frames hframes => ?_
      · intro request hrequest
        rcases List.mem_append.mp hrequest with h | h
        · exact hhead.found request h
        · exact htail.found request h
      · obtain ⟨frame', others, rfl, hframe, hothers⟩ := decodeAll_cons_eq_ok hframes
        cases hdecode.symm.trans hframe
        rw [List.map_append, hhead.exact_of_ok hdecode, htail.exact_of_ok hothers, Frame.nodesAll,
          List.filterMap_append]
        rfl

/-- Only the branch of arrays asks. -/
theorem requests_parseData_succ {fuel : ℕ} {src : Cursor} {marker : UInt8} {t : Bytes}
    (hunread : src.unread = marker :: t) :
    requests (Audit.parseData (fuel + 1)) src =
      if marker = star then requests (Audit.arrayData (Audit.parseData fuel)) (src.skip 1)
      else [] := by
  have hread : Notes (fun _ => True) NoRequest (silent CursorM.getU8) CursorM.getU8 :=
    notes_silent data_getU8
  have hfree : Free (Audit.decodeMarked (Audit.arrayData (Audit.parseData fuel)) marker)
      (decodeMarked (arrayData (parseData fuel)) marker) :=
    decodeMarked_notes getLine_free (fun _ _ => trivial) fun _ => arrayData_free fuel
  rw [Audit.parseData, requests_bind_quiet hread (getU8_cons hunread) hfree.erases]
  by_cases hstar : marker = star
  · subst hstar
    rw [if_pos rfl]
    rfl
  · rw [if_neg hstar]
    exact requests_quiet (decodeMarked_notes (p := arrayData (parseData fuel)) getLine_quiet
      (fun _ _ => rfl) fun h => absurd h hstar) _

theorem requests_withCapacity {α : Type} {k : AuditM α} {p : CursorM α} (hk : Erases k p)
    (capacity : ℕ) (src : Cursor) :
    requests (Audit.withCapacity capacity >>= fun _ => k) src =
      (src.position, capacity) :: requests k src := by
  rw [requests, Audit.withCapacity, hk.written_note_bind]
  rfl

/-- The null array asks for nothing. -/
theorem requests_arrayData_null {fuel : ℕ} {src src' : Cursor} {num : Int64}
    (hnum : getDecimal src = (.ok num, src')) (hneg : num = -1) :
    requests (Audit.arrayData (Audit.parseData fuel)) src = [] := by
  rw [Audit.arrayData, requests_bind_quiet (getDecimal_notes getLine_quiet) hnum
    (by rw [if_pos hneg]; exact Erases.pure Frame.null), if_pos hneg]
  rfl

/-- An array asks for its length and then for its elements. -/
theorem requests_arrayData {fuel : ℕ} {src src' : Cursor} {num : Int64}
    (hnum : getDecimal src = (.ok num, src')) (hnonneg : 0 ≤ num) :
    requests (Audit.arrayData (Audit.parseData fuel)) src =
      (src'.position, num.toNatClampNeg) ::
        requests (Audit.collect (Audit.parseData fuel) num.toNatClampNeg) src' := by
  have hneg : ¬ num = -1 := by
    rintro rfl
    exact absurd hnonneg (by decide)
  have hsize : usizeTryFrom num "Array length overflow" src' = (.ok num.toNatClampNeg, src') := by
    rw [usizeTryFrom, if_pos hnonneg]
    rfl
  have helements : ∀ capacity, Free
      (Audit.collect (Audit.parseData fuel) capacity >>= fun elements =>
        pure (Frame.array elements))
      (CursorM.collect (parseData fuel) capacity >>= fun elements =>
        pure (Frame.array elements)) := fun capacity =>
    (collect_free fuel capacity).bind fun _ _ _ _ => .pure _
  have hreserve : ∀ capacity, Free
      (Audit.withCapacity capacity >>= fun _ =>
        Audit.collect (Audit.parseData fuel) capacity >>= fun elements =>
          pure (Frame.array elements))
      (CursorM.collect (parseData fuel) capacity >>= fun elements =>
        pure (Frame.array elements)) := fun capacity =>
    (helements capacity).note_bind fun _ _ => trivial
  have hquiet : Notes (fun _ => True) NoRequest
      (silent (usizeTryFrom num "Array length overflow")) _ :=
    notes_silent (data_usizeTryFrom num "Array length overflow")
  have hbody := hquiet.erases.bind (f := fun capacity => _) fun capacity _ _ _ =>
    (hreserve capacity).erases
  rw [Audit.arrayData, requests_bind_quiet (getDecimal_notes getLine_quiet) hnum
    (by rw [if_neg hneg]; exact hbody), if_neg hneg,
    requests_bind_quiet hquiet hsize (hreserve _).erases,
    requests_withCapacity (helements _).erases, requests_map (collect_free fuel _).erases]

theorem getDecimal_field {src : Cursor} {line rest : Bytes} {num : Int64}
    (hfield : DecimalField line num.toInt) (hunread : src.unread = line ++ cr :: lf :: rest) :
    getDecimal src = (.ok num, src.skip (line.length + 2)) := by
  have hdecoder := decimalDecoder_field hfield rest
  rw [← hunread] at hdecoder
  obtain ⟨_, hrun, rfl⟩ := getDecimal_refines.of_complete hdecoder
  exact hrun

theorem arrayLengths_of_line {marker : UInt8} {content : Bytes} {frame : Frame}
    (h : decode (.line marker content) = .ok frame) : frame.arrayLengths = [] := by
  rw [decode] at h
  split at h
  · split at h
    · cases h
    · cases h
      split <;> rfl
  · split at h
    · cases h
    · cases h
      rfl

/-- Behind a check the decoding pass asks for arrays whose elements were found, and for
exactly those of the frame when it succeeds. -/
theorem parseData_asked (fuel : ℕ) {depth : ℕ} (hdepth : depth ≤ maxArrayDepth) (src : Cursor)
    (used rest : Bytes) (sk : Skeleton) (hfuel : src.unread.length < fuel)
    (hunread : src.unread = used ++ rest) (h : Shape depth used sk) :
    Asked src.data (requests (Audit.parseData fuel) src) ((decode sk).map Frame.arrayLengths) := by
  induction fuel generalizing depth src used rest sk with
  | zero => omega
  | succ fuel ih =>
    cases h with
    | @line _ marker line hmarker hline =>
      have hstar : ¬ marker = star := by
        rintro rfl
        exact absurd hmarker (by decide)
      rw [requests_parseData_succ hunread, if_neg hstar]
      exact .of_map Asked.nil.found fun frame hframe => (arrayLengths_of_line hframe).symm
    | nullBulk hfield =>
      rw [requests_parseData_succ hunread, if_neg (by decide), decode]
      exact Asked.nil
    | bulk hfield =>
      rw [requests_parseData_succ hunread, if_neg (by decide), decode]
      exact Asked.nil
    | @nullArray _ line hlt hfield =>
      have hvalue : DecimalField line (-1 : Int64).toInt := hfield
      have hbody : (src.skip 1).unread = line ++ cr :: lf :: rest := by
        rw [Cursor.unread_skip, hunread]
        simp
      rw [requests_parseData_succ hunread, if_pos rfl,
        requests_arrayData_null (getDecimal_field hvalue hbody) rfl, decode]
      exact Asked.nil
    | @array _ line body elements hlt hfield hlimit helements =>
      obtain ⟨num, hnum⟩ := hfield.exists_toInt
      have hbody : (src.skip 1).unread = line ++ cr :: lf :: (body ++ rest) := by
        rw [Cursor.unread_skip, hunread]
        simp
      have hrest : ((src.skip 1).skip (line.length + 2)).unread = body ++ rest := by
        rw [Cursor.unread_skip, hbody, ← List.drop_drop, List.drop_left]
        rfl
      have hshort : ((src.skip 1).skip (line.length + 2)).unread.length < fuel := by
        have hlength : src.unread.length =
            (star :: (line ++ [cr, lf] ++ body) ++ rest).length := by rw [hunread]
        rw [hrest, List.length_append]
        simp only [List.length_cons, List.length_append, List.length_nil] at hlength
        omega
      rw [← hnum] at hfield
      have hnonneg : 0 ≤ num := by
        rw [zero_le_iff_toInt]
        omega
      rw [requests_parseData_succ hunread, if_pos rfl,
        requests_arrayData (getDecimal_field hfield hbody) hnonneg, toNatClampNeg_of_toInt hnum]
      have hasked := collect_asked (show depth + 1 ≤ maxArrayDepth by omega)
        (fun src used rest sk hfuel hunread h =>
          ih (show depth + 1 ≤ maxArrayDepth by omega) src used rest sk hfuel hunread h)
        helements _ rest hshort hrest
      refine .of_map ?_ fun frame hframe => ?_
      · intro request hrequest
        rcases List.mem_cons.mp hrequest with rfl | htail
        · exact helements.found hlt hrest
        · exact hasked.found request htail
      · obtain ⟨frames, rfl, hframes⟩ := decode_array_eq_ok hframe
        rw [List.map_cons, hasked.exact_of_ok hframes, Frame.arrayLengths, Frame.nodes,
          List.filterMap_cons, decodeAll_length hframes]
        rfl

/-- A failed check asks for nothing; otherwise only the decoding pass asks. -/
theorem requests_parse (src : Cursor) :
    requests Audit.parse src =
      match check src with
      | (.error _, _) => []
      | (.ok _, _) => requests (Audit.parseData (src.unread.length + 1)) src := by
  have hrun : requests Audit.parse src =
      requests (Audit.check >>= fun _ =>
        silent (CursorM.setPosition src.position) >>= fun _ =>
          silent CursorM.remaining >>= fun unread => Audit.parseData (unread + 1)) src := rfl
  have hquiet : Notes (fun _ => True) NoRequest Audit.check check := check_quiet 0
  have hrest : Free
      (silent (CursorM.setPosition src.position) >>= fun _ =>
        silent CursorM.remaining >>= fun unread => Audit.parseData (unread + 1))
      (CursorM.setPosition src.position >>= fun _ =>
        CursorM.remaining >>= fun unread => parseData (unread + 1)) := by
    have hrewind : Free (silent (CursorM.setPosition src.position))
        (CursorM.setPosition src.position) := notes_silent fun _ => rfl
    have hremaining : Free (silent CursorM.remaining) CursorM.remaining :=
      notes_silent fun _ => rfl
    exact hrewind.bind fun _ _ _ _ => hremaining.bind fun unread _ _ _ => parseData_free _
  rw [hrun]
  rcases hcheck : check src with ⟨e | _, stop⟩
  · rw [requests_bind_error hquiet.erases (by rw [hcheck]), requests_quiet hquiet]
  · obtain ⟨_, _, _, _, rfl, _⟩ := check_shape hcheck
    rw [requests_bind_quiet hquiet hcheck hrest.erases]
    rfl

theorem Readable.shortArrays {frame : Frame} (h : Readable frame) : frame.ShortArrays := by
  intro node hnode
  have hreadable := h node hnode
  cases node with
  | simple string => trivial
  | error string => trivial
  | integer num => trivial
  | bulk bytes => trivial
  | array elements => exact hreadable
  | null => trivial

theorem nodesCost_eq (nodes : List Frame) :
    nodesCost nodes = 3 * nodes.length + (nodes.map Frame.payload).sum := by
  induction nodes with
  | nil => rfl
  | cons node nodes ih =>
    have hcons : nodesCost (node :: nodes) = 3 + node.payload + nodesCost nodes := rfl
    rw [hcons, ih, List.length_cons, List.map_cons, List.sum_cons]
    omega

/-- Decoding does not amplify its input: three bytes pay for each node beside all payloads,
the reserved lengths are the nodes below the root and less than a third of the bytes, and
both limits hold. Whatever the outcome, memory is only reserved behind a successful check,
for as many elements as the check has found at that place. -/
theorem parse_modest (src : Cursor) :
    (∀ frame stop, parse src = (.ok frame, stop) →
      src.position + (3 * frame.nodes.length + (frame.nodes.map Frame.payload).sum) ≤
        stop.position ∧
      ((requests Audit.parse src).map Prod.snd).sum = frame.nodes.length - 1 ∧
      src.position + 3 * ((requests Audit.parse src).map Prod.snd).sum < stop.position ∧
      frame.depth ≤ maxArrayDepth ∧ frame.ShortArrays) ∧
    ∀ request ∈ requests Audit.parse src,
      Found src.data request ∧ ∃ stop, check src = (.ok (), stop) := by
  have hasked : ∀ stop, check src = (.ok (), stop) → ∃ sk,
      skeleton maxArrayDepth src.unread = .complete sk (stop.position - src.position) ∧
      Asked src.data (requests Audit.parse src) ((decode sk).map Frame.arrayLengths) := by
    intro stop hcheck
    obtain ⟨used, rest, sk, hunread, rfl, hshape, hsk⟩ := check_shape hcheck
    refine ⟨sk, ?_, ?_⟩
    · rw [hsk, Cursor.skip, Nat.add_sub_cancel_left]
    · rw [requests_parse, hcheck]
      exact parseData_asked _ (Nat.zero_le _) src used rest sk (Nat.lt_succ_self _) hunread hshape
  refine ⟨?_, ?_⟩
  · intro frame stop h
    obtain ⟨n, hdecoder, rfl⟩ := parse_eq_ok_iff.mp h
    obtain ⟨sk, hsk, hdecode⟩ := Decoder.interpret_eq_complete.mp hdecoder
    obtain ⟨_, hcheck, _⟩ := check_refines.of_complete hsk
    obtain ⟨sk', hsk', hask⟩ := hasked _ hcheck
    obtain rfl : sk = sk' := by
      rw [hsk] at hsk'
      injection hsk'
    have hexact := hask.exact frame.arrayLengths (by rw [hdecode]; rfl)
    have hsum := frame.sum_arrayLengths
    have hcost := frameDecoder_charge hdecoder
    rw [Frame.cost, nodesCost_eq] at hcost
    obtain ⟨_, _, _, _, hderives⟩ := parse_derives h
    have hdepth := hderives.depth_le (Nat.zero_le _)
    have hskip : (src.skip n).position = src.position + n := rfl
    rw [hexact, hskip]
    refine ⟨by omega, by omega, by omega, by omega, hderives.readable.shortArrays⟩
  · intro request hrequest
    rw [requests_parse] at hrequest
    rcases hcheck : check src with ⟨e | _, stop⟩
    · rw [hcheck] at hrequest
      cases hrequest
    · rw [← requests_parse] at hrequest
      obtain ⟨sk, -, hask⟩ := hasked stop hcheck
      exact ⟨hask.found request hrequest, stop, rfl⟩

/-- Two elements behind a padded length. -/
theorem parse_modest_pair :
    ((requests Audit.parse ⟨asBytes "*02\r\n*-1\r\n$0\r\n\r\n", 0⟩).map Prod.snd).sum = 2 := by
  have hrun : parse ⟨asBytes "*02\r\n*-1\r\n$0\r\n\r\n", 0⟩ =
      (.ok (.array [.null, .bulk []]), ⟨asBytes "*02\r\n*-1\r\n$0\r\n\r\n", 16⟩) :=
    parse_eq_ok_iff.mpr ⟨16, rfl, rfl⟩
  exact ((parse_modest _).1 _ _ hrun).2.1

end MiniRedis
