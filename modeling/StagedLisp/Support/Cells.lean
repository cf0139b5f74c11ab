/-! Cells of the generated program: headers, the cell type, the integer pool and constructors. -/
namespace StagedLisp.Support

def cells : List String := [
  "#include <stdint.h>",
  "#include <stdio.h>",
  "#include <stdlib.h>",
  "",
  "typedef struct Obj \x7b",
  "    int rc;",
  "    int mark;",
  "    int scc_id;",
  "    int is_pair;",
  "    union \x7b",
  "        long i;",
  "        struct \x7b",
  "            struct Obj* a;",
  "            struct Obj* b;",
  "        \x7d;",
  "    \x7d;",
  "\x7d Obj;",
  "",
  "static Obj STACK_POOL[STACK_POOL_SIZE];",
  "static int STACK_PTR = 0;",
  "",
  "static int is_stack_obj(Obj* x) \x7b",
  "    uintptr_t p = (uintptr_t)x;",
  "    uintptr_t lo = (uintptr_t)&STACK_POOL[0];",
  "    uintptr_t hi = (uintptr_t)&STACK_POOL[STACK_POOL_SIZE];",
  "    return p >= lo && p < hi;",
  "\x7d",
  "",
  "static Obj* init_int(Obj* x, long i) \x7b",
  "    x->rc = 1;",
  "    x->mark = 0;",
  "    x->scc_id = -1;",
  "    x->is_pair = 0;",
  "    x->i = i;",
  "    return x;",
  "\x7d",
  "",
  "static Obj* init_pair(Obj* x, Obj* a, Obj* b) \x7b",
  "    x->rc = 1;",
  "    x->mark = 0;",
  "    x->scc_id = -1;",
  "    x->is_pair = 1;",
  "    x->a = a;",
  "    x->b = b;",
  "    return x;",
  "\x7d",
  "",
  "static Obj* mk_int(long i) \x7b",
  "    Obj* x = malloc(sizeof(Obj));",
  "    if (!x) \x7b",
  "        fprintf(stderr, \"out of memory\\n\");",
  "        exit(1);",
  "    \x7d",
  "    return init_int(x, i);",
  "\x7d",
  "",
  "static Obj* mk_pair(Obj* a, Obj* b) \x7b",
  "    Obj* x = malloc(sizeof(Obj));",
  "    if (!x) \x7b",
  "        fprintf(stderr, \"out of memory\\n\");",
  "        exit(1);",
  "    \x7d",
  "    return init_pair(x, a, b);",
  "\x7d",
  "",
  "static Obj* mk_int_stack(long i) \x7b",
  "    if (STACK_PTR < STACK_POOL_SIZE) \x7b",
  "        return init_int(&STACK_POOL[STACK_PTR++], i);",
  "    \x7d",
  "    return mk_int(i);",
  "\x7d",
  "",
  "typedef struct FreeNode \x7b",
  "    Obj* obj;",
  "    struct FreeNode* next;",
  "\x7d FreeNode;",
  "",
  "static FreeNode* FREE_LIST = NULL;",
  "",
  "static void defer_free(Obj* x) \x7b",
  "    FreeNode* n;",
  "    if (!x || is_stack_obj(x)) return;",
  "    n = malloc(sizeof(FreeNode));",
  "    if (!n) \x7b",
  "        free(x);",
  "        return;",
  "    \x7d",
  "    n->obj = x;",
  "    n->next = FREE_LIST;",
  "    FREE_LIST = n;",
  "\x7d",
  "",
  "/* defined with the helpers, called by type scanners */",
  "static Obj* scan_obj(Obj* x);"]

end StagedLisp.Support
