/-! Frozen cyclic components of the generated program. -/
namespace StagedLisp.Support

def components : List String := [
  "",
  "/* Frozen strongly connected components */",
  "typedef struct SccGroup \x7b",
  "    Obj** members;",
  "    int count;",
  "    int rc;",
  "\x7d SccGroup;",
  "",
  "static SccGroup* SCCS = NULL;",
  "static int SCC_COUNT = 0;",
  "static int SCC_CAP = 0;",
  "",
  "typedef struct TarjanNode \x7b",
  "    Obj* obj;",
  "    int index;",
  "    int low;",
  "    int on_stack;",
  "\x7d TarjanNode;",
  "",
  "static TarjanNode* TJ = NULL;",
  "static int TJ_COUNT = 0;",
  "static int TJ_CAP = 0;",
  "static int* TJ_STACK = NULL;",
  "static int TJ_TOP = 0;",
  "",
  "static int tj_find(Obj* x) \x7b",
  "    for (int i = 0; i < TJ_COUNT; i++) \x7b",
  "        if (TJ[i].obj == x) return i;",
  "    \x7d",
  "    return -1;",
  "\x7d",
  "",
  "static int tj_add(Obj* x) \x7b",
  "    if (TJ_COUNT == TJ_CAP) \x7b",
  "        TJ_CAP = TJ_CAP ? TJ_CAP * 2 : 16;",
  "        TJ = realloc(TJ, sizeof(TarjanNode) * TJ_CAP);",
  "        TJ_STACK = realloc(TJ_STACK, sizeof(int) * TJ_CAP);",
  "        if (!TJ || !TJ_STACK) \x7b",
  "            fprintf(stderr, \"out of memory\\n\");",
  "            exit(1);",
  "        \x7d",
  "    \x7d",
  "    TJ[TJ_COUNT].obj = x;",
  "    TJ[TJ_COUNT].index = TJ_COUNT;",
  "    TJ[TJ_COUNT].low = TJ_COUNT;",
  "    TJ[TJ_COUNT].on_stack = 1;",
  "    TJ_STACK[TJ_TOP++] = TJ_COUNT;",
  "    return TJ_COUNT++;",
  "\x7d",
  "",
  "static int scc_new_group(void) \x7b",
  "    if (SCC_COUNT == SCC_CAP) \x7b",
  "        SCC_CAP = SCC_CAP ? SCC_CAP * 2 : 8;",
  "        SCCS = realloc(SCCS, sizeof(SccGroup) * SCC_CAP);",
  "        if (!SCCS) \x7b",
  "            fprintf(stderr, \"out of memory\\n\");",
  "            exit(1);",
  "        \x7d",
  "    \x7d",
  "    SCCS[SCC_COUNT].members = NULL;",
  "    SCCS[SCC_COUNT].count = 0;",
  "    SCCS[SCC_COUNT].rc = 0;",
  "    return SCC_COUNT++;",
  "\x7d",
  "",
  "static void scc_add_member(int id, Obj* x) \x7b",
  "    SccGroup* g = &SCCS[id];",
  "    g->members = realloc(g->members, sizeof(Obj*) * (g->count + 1));",
  "    if (!g->members) \x7b",
  "        fprintf(stderr, \"out of memory\\n\");",
  "        exit(1);",
  "    \x7d",
  "    g->members[g->count++] = x;",
  "    x->scc_id = id;",
  "\x7d",
  "",
  "static int tarjan(Obj* v) \x7b",
  "    int vi = tj_add(v);",
  "    Obj* kids[2];",
  "    kids[0] = v->is_pair ? v->a : NULL;",
  "    kids[1] = v->is_pair ? v->b : NULL;",
  "    for (int k = 0; k < 2; k++) \x7b",
  "        Obj* w = kids[k];",
  "        int wi;",
  "        if (!w || is_stack_obj(w)) continue;",
  "        wi = tj_find(w);",
  "        if (wi < 0) \x7b",
  "            wi = tarjan(w);",
  "            if (TJ[wi].low < TJ[vi].low) TJ[vi].low = TJ[wi].low;",
  "        \x7d else if (TJ[wi].on_stack && TJ[wi].index < TJ[vi].low) \x7b",
  "            TJ[vi].low = TJ[wi].index;",
  "        \x7d",
  "    \x7d",
  "    if (TJ[vi].low == TJ[vi].index) \x7b",
  "        int id = scc_new_group();",
  "        int wi;",
  "        do \x7b",
  "            wi = TJ_STACK[--TJ_TOP];",
  "            TJ[wi].on_stack = 0;",
  "            scc_add_member(id, TJ[wi].obj);",
  "        \x7d while (wi != vi);",
  "    \x7d",
  "    return vi;",
  "\x7d",
  "",
  "static Obj* freeze_cyclic(Obj* root) \x7b",
  "    int first = SCC_COUNT;",
  "    if (!root || is_stack_obj(root) || root->scc_id >= 0) return root;",
  "    TJ_COUNT = 0;",
  "    TJ_TOP = 0;",
  "    tarjan(root);",
  "    for (int id = first; id < SCC_COUNT; id++) \x7b",
  "        for (int m = 0; m < SCCS[id].count; m++) \x7b",
  "            Obj* x = SCCS[id].members[m];",
  "            if (!x->is_pair) continue;",
  "            if (x->a && x->a->scc_id >= first && x->a->scc_id != id) SCCS[x->a->scc_id].rc++;",
  "            if (x->b && x->b->scc_id >= first && x->b->scc_id != id) SCCS[x->b->scc_id].rc++;",
  "        \x7d",
  "    \x7d",
  "    SCCS[root->scc_id].rc++;",
  "    return root;",
  "\x7d",
  "",
  "static void inc_scc_ref(int id) \x7b",
  "    if (id >= 0 && id < SCC_COUNT) SCCS[id].rc++;",
  "\x7d",
  "",
  "static void release_scc(int id) \x7b",
  "    SccGroup* g;",
  "    if (id < 0 || id >= SCC_COUNT) return;",
  "    g = &SCCS[id];",
  "    if (g->count == 0 || --g->rc > 0) return;",
  "    for (int m = 0; m < g->count; m++) \x7b",
  "        Obj* x = g->members[m];",
  "        Obj* kids[2];",
  "        if (!x->is_pair) continue;",
  "        kids[0] = x->a;",
  "        kids[1] = x->b;",
  "        for (int k = 0; k < 2; k++) \x7b",
  "            Obj* w = kids[k];",
  "            if (!w) continue;",
  "            if (w->scc_id < 0) dec_ref(w);",
  "            else if (w->scc_id != id) release_scc(w->scc_id);",
  "        \x7d",
  "    \x7d",
  "    for (int m = 0; m < g->count; m++) \x7b",
  "        if (!is_stack_obj(g->members[m])) free(g->members[m]);",
  "    \x7d",
  "    free(g->members);",
  "    g->members = NULL;",
  "    g->count = 0;",
  "\x7d"]

end StagedLisp.Support
