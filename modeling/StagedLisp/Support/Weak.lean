/-! Weak references of the generated program. -/
namespace StagedLisp.Support

def weak : List String := [
  "",
  "/* Weak references */",
  "typedef struct WeakRef \x7b",
  "    void* target;",
  "    int alive;",
  "\x7d WeakRef;",
  "",
  "typedef struct WeakNode \x7b",
  "    WeakRef* ref;",
  "    struct WeakNode* next;",
  "\x7d WeakNode;",
  "",
  "static WeakNode* WEAK_REFS = NULL;",
  "",
  "static WeakRef* mk_weak_ref(void* target) \x7b",
  "    WeakRef* w = malloc(sizeof(WeakRef));",
  "    WeakNode* n = malloc(sizeof(WeakNode));",
  "    if (!w || !n) \x7b",
  "        fprintf(stderr, \"out of memory\\n\");",
  "        exit(1);",
  "    \x7d",
  "    w->target = target;",
  "    w->alive = 1;",
  "    n->ref = w;",
  "    n->next = WEAK_REFS;",
  "    WEAK_REFS = n;",
  "    return w;",
  "\x7d",
  "",
  "static void* deref_weak(WeakRef* w) \x7b",
  "    return (w && w->alive) ? w->target : NULL;",
  "\x7d",
  "",
  "static void invalidate_weak(WeakRef* w) \x7b",
  "    if (w) w->alive = 0;",
  "\x7d",
  "",
  "static void cleanup_weak_refs(void) \x7b",
  "    while (WEAK_REFS) \x7b",
  "        WeakNode* n = WEAK_REFS;",
  "        WEAK_REFS = n->next;",
  "        free(n->ref);",
  "        free(n);",
  "    \x7d",
  "\x7d"]

end StagedLisp.Support
